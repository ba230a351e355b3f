import Udk.Pei.Hob

/-! # The heap of the PEI core is well formed

What has been handed out and asked for is kept beside the core. A call that the condition leaves out is one of three: a
length that a `UINT16` cannot hold once it is rounded up, an end of list in the middle, and a page allocation without
room for its own HOB or with the top aligned down below the bottom.
-/

namespace Udk.Pei

open Bytes

/-! ## Calls -/

structure Heap where
  core : PeiCoreInstance
  /-- The ranges of the successful calls. -/
  handed : List (Nat × Nat)
  /-- The HOBs of the successful calls, with the length asked for. -/
  created : List (Nat × Nat)

inductive Call
  | createHob (type length : Nat)
  | allocatePool (size : Nat)
  | allocatePages (memoryType pages : Nat)
  /-- A caller stores into what it got. -/
  | store (address : Nat) (bytes : List UInt8)

def step (s : Heap) : Call → Option Heap
  | .createHob type length =>
    match peiCreateHob s.core type length with
    | (.success, hob, core) => some { s with core, created := s.created ++ [(hob, length)] }
    | (_, _, core) => some { s with core }
  | .allocatePool size =>
    match peiAllocatePool s.core size with
    | (.success, buffer, core) =>
      some ⟨core, s.handed ++ [(buffer, size)],
        s.created ++ [(buffer - sizeOfMemoryPool, sizeOfMemoryPool + size)]⟩
    | (_, _, core) => some { s with core }
  | .allocatePages memoryType pages =>
    match peiAllocatePages s.core memoryType pages with
    | (.success, base, core) =>
      some ⟨core, s.handed ++ [(base, pages * efiPageSize)],
        s.created ++ [(efiEndOfHobList s.core.memory s.core.hobList, sizeOfMemoryAllocation)]⟩
    | (_, _, core) => some { s with core }
  | .store address bytes => some { s with core := { s.core with memory := write s.core.memory address bytes } }

/-- The core with its memory installed, right after the handoff information table is built. -/
def start (m : Memory) (bootMode memoryBegin memoryLength : Nat) : Heap where
  core :=
    { hobList := memoryBegin
      peiMemoryInstalled := true
      switchStackSignal := true
      physicalMemoryBegin := memoryBegin
      freePhysicalMemoryTop := memoryBegin + memoryLength
      memory := peiCoreBuildHobHandoffInfoTable m bootMode memoryBegin memoryLength }
  handed := []
  created := []

/-! ## Well formed -/

/-- The HOBs `hobs` follow each other from `a`, none of them the end, up to `e`. -/
def HobList (m : Memory) (a : Nat) : List Nat → Nat → Prop
  | [], e => a = e
  | h :: hobs, e =>
    h = a ∧ hobType m a ≠ hobTypeEndOfHobList ∧ 0 < hobLength m a ∧ 8 ∣ hobLength m a ∧
      HobList m (a + hobLength m a) hobs e

def Apart (r r' : Nat × Nat) : Prop := r.1 + r.2 ≤ r'.1 ∨ r'.1 + r'.2 ≤ r.1

instance (r r' : Nat × Nat) : Decidable (Apart r r') :=
  inferInstanceAs (Decidable (r.1 + r.2 ≤ r'.1 ∨ r'.1 + r'.2 ≤ r.1))

/-- The HOBs `hobs` are the list of a region of `length` bytes at `begin`. -/
structure WellFormedWith (base length : Nat) (s : Heap) (hobs : List Nat) : Prop where
  ordered : efiFreeMemoryBottom s.core.memory base ≤ efiFreeMemoryTop s.core.memory base
  list : HobList s.core.memory base hobs (efiEndOfHobList s.core.memory base)
  ending : hobType s.core.memory (efiEndOfHobList s.core.memory base) = hobTypeEndOfHobList
  created : ∀ c ∈ s.created, c.1 ∈ hobs ∧ c.2 ≤ hobLength s.core.memory c.1
  region : ∀ r ∈ s.handed, base ≤ r.1 ∧ r.1 + r.2 ≤ base + length
  apart : s.handed.Pairwise Apart
  headers : ∀ r ∈ s.handed, ∀ h ∈ hobs ++ [efiEndOfHobList s.core.memory base], Apart r (h, sizeOfGenericHeader)

def WellFormed (base length : Nat) (s : Heap) : Prop := ∃ hobs, WellFormedWith base length s hobs

/-- The pages leave room for the HOB that describes them. -/
def PagesFit (s : Heap) (pages : Nat) : Prop :=
  let bottom := efiFreeMemoryBottom s.core.memory s.core.hobList
  let top := efiFreeMemoryTop s.core.memory s.core.hobList
  let aligned := top - top % efiPageSize
  bottom ≤ aligned ∧
    (sizeToPages (aligned - bottom) ≤ pages ∨ bottom + sizeOfMemoryAllocation + pages * efiPageSize ≤ aligned)

instance (s : Heap) (pages : Nat) : Decidable (PagesFit s pages) := inferInstanceAs (Decidable (_ ∧ _))

/-- What `PeiCreateHob` has left. -/
def freeMemory (s : Heap) : Nat :=
  uint64Sub (efiFreeMemoryTop s.core.memory s.core.hobList) (efiFreeMemoryBottom s.core.memory s.core.hobList)

/-- An end of list in the middle is created by no call. -/
def Allowed (s : Heap) : Call → Prop
  | .createHob type length =>
    (type < 2 ^ 16 ∧ sizeOfGenericHeader ≤ length ∧ length ≤ 65528) ∧
      (type ≠ hobTypeEndOfHobList ∨ freeMemory s < roundUp8 length)
  | .allocatePool size => size ≤ 65520 ∨ 65528 ≤ size
  | .allocatePages memoryType pages => allocatable memoryType → PagesFit s pages
  | .store address bytes =>
    (∃ r ∈ s.handed, r.1 ≤ address ∧ address + bytes.length ≤ r.1 + r.2) ∨
      ∃ c ∈ s.created, c.1 + sizeOfGenericHeader ≤ address ∧ address + bytes.length ≤ c.1 + c.2

instance (s : Heap) (c : Call) : Decidable (Allowed s c) :=
  match c with
  | .createHob type length =>
    inferInstanceAs (Decidable ((type < 2 ^ 16 ∧ sizeOfGenericHeader ≤ length ∧ length ≤ 65528) ∧
      (type ≠ hobTypeEndOfHobList ∨ freeMemory s < roundUp8 length)))
  | .allocatePool size => inferInstanceAs (Decidable (size ≤ 65520 ∨ 65528 ≤ size))
  | .allocatePages memoryType pages => inferInstanceAs (Decidable (allocatable memoryType → PagesFit s pages))
  | .store address bytes =>
    inferInstanceAs (Decidable ((∃ r ∈ s.handed, r.1 ≤ address ∧ address + bytes.length ≤ r.1 + r.2) ∨
      ∃ c ∈ s.created, c.1 + sizeOfGenericHeader ≤ address ∧ address + bytes.length ≤ c.1 + c.2))

/-! ## Headers -/

theorem header_at (m : Memory) (a t l : Nat) (ht : t < 2 ^ 16) (hl : l < 2 ^ 16) :
    hobType (write m a (genericHeader t l)) a = t ∧ hobLength (write m a (genericHeader t l)) a = l := by
  have hat := write_at m a (genericHeader t l)
  rw [genericHeader, at_append, at_append, toLE_length] at hat
  exact ⟨at_readLE _ _ _ _ hat.1.1 ht, at_readLE _ _ _ _ hat.1.2 hl⟩

@[simp] theorem genericHeader_length (t l : Nat) : (genericHeader t l).length = 8 := by
  simp [genericHeader]

/-- Two memories with the same header at `h`. -/
theorem header_congr {m m' : Memory} {h : Nat} (heq : ∀ i, h ≤ i → i < h + 8 → m' i = m i) :
    hobType m' h = hobType m h ∧ hobLength m' h = hobLength m h :=
  ⟨readLE_congr _ _ _ _ fun i h1 h2 => heq i h1 (by omega),
    readLE_congr _ _ _ _ fun i h1 h2 => heq i (by omega) (by omega)⟩

namespace HobList
variable {m m' : Memory} {a e : Nat} {hobs : List Nat}

theorem le (hl : HobList m a hobs e) : a ≤ e := by
  induction hobs generalizing a with
  | nil => exact Nat.le_of_eq hl
  | cons h hobs ih => exact Nat.le_trans (Nat.le_add_right _ _) (ih hl.2.2.2.2)

theorem mem (hl : HobList m a hobs e) {h : Nat} (hh : h ∈ hobs) :
    a ≤ h ∧ 8 ≤ hobLength m h ∧ h + hobLength m h ≤ e := by
  induction hobs generalizing a with
  | nil => cases hh
  | cons x hobs ih =>
    obtain ⟨rfl, -, hpos, hdvd, hrest⟩ := hl
    rcases List.mem_cons.mp hh with rfl | hh
    · exact ⟨Nat.le_refl _, Nat.le_of_dvd hpos hdvd, hrest.le⟩
    · have := ih hrest hh
      exact ⟨by omega, this.2⟩

/-- A HOB ends where a later one begins, or before. -/
theorem apart (hl : HobList m a hobs e) {h h' : Nat} (hh : h ∈ hobs) (hh' : h' ∈ hobs) :
    h' ≤ h ∨ h + hobLength m h ≤ h' := by
  induction hobs generalizing a with
  | nil => cases hh
  | cons x hobs ih =>
    have hfirst := (HobList.mem hl hh).1
    obtain ⟨rfl, -, hpos, hdvd, hrest⟩ := hl
    rcases List.mem_cons.mp hh' with rfl | hin'
    · exact .inl hfirst
    · rcases List.mem_cons.mp hh with rfl | hin
      · exact .inr (hrest.mem hin').1
      · exact ih hrest hin hin'

theorem congr (hl : HobList m a hobs e)
    (heq : ∀ h ∈ hobs, hobType m' h = hobType m h ∧ hobLength m' h = hobLength m h) : HobList m' a hobs e := by
  induction hobs generalizing a with
  | nil => exact hl
  | cons x hobs ih =>
    obtain ⟨rfl, htype, hpos, hdvd, hrest⟩ := hl
    obtain ⟨h1, h2⟩ := heq x (by simp)
    refine ⟨rfl, h1 ▸ htype, h2 ▸ hpos, h2 ▸ hdvd, ?_⟩
    rw [h2]
    exact ih hrest fun h hh => heq h (by simp [hh])

/-- A HOB where the list ended. -/
theorem snoc (hl : HobList m a hobs e) (htype : hobType m e ≠ hobTypeEndOfHobList) (hpos : 0 < hobLength m e)
    (hdvd : 8 ∣ hobLength m e) : HobList m a (hobs ++ [e]) (e + hobLength m e) := by
  induction hobs generalizing a with
  | nil =>
    obtain rfl : a = e := hl
    exact ⟨rfl, htype, hpos, hdvd, rfl⟩
  | cons x hobs ih =>
    obtain ⟨rfl, h1, h2, h3, hrest⟩ := hl
    exact ⟨rfl, h1, h2, h3, ih hrest⟩

end HobList

/-! ## A new HOB -/

theorem uint64Sub_of_le {a b : Nat} (hle : b ≤ a) (ha : a < 2 ^ 64) : uint64Sub a b = a - b := by
  unfold uint64Sub
  rw [Nat.mod_eq_of_lt (show b < 2 ^ 64 by omega), show a + (2 ^ 64 - b) = a - b + 2 ^ 64 by omega,
    Nat.add_mod_right, Nat.mod_eq_of_lt (by omega)]

theorem roundUp8_spec {length : Nat} (h8 : 8 ≤ length) (hlt : length ≤ 65528) :
    length ≤ roundUp8 length ∧ 8 ∣ roundUp8 length ∧ roundUp8 length < 2 ^ 16 := by
  have hmod : roundUp8 length = (length + 7) / 8 * 8 := Nat.mod_eq_of_lt (by omega)
  rw [hmod]
  refine ⟨by omega, ?_, by omega⟩
  exact Nat.dvd_mul_left _ _

/-- The table at `a` says where the list ends, with the free memory behind its end. -/
structure Table (m : Memory) (a e top : Nat) : Prop where
  atEnd : efiEndOfHobList m a = e
  atBottom : efiFreeMemoryBottom m a = e + 8
  atTop : efiFreeMemoryTop m a = top
  behind : a + 56 ≤ e
  room : e + 8 ≤ top
  fits : top < 2 ^ 64
  ending : hobType m e = hobTypeEndOfHobList

/-- Memory `m'` has a new HOB of `l` bytes at `e`, and is else `m` outside of the table and of the two headers. -/
structure NewHob (m m' : Memory) (a e t l : Nat) : Prop where
  type : hobType m' e = t
  length : hobLength m' e = l
  frame : ∀ i, i < a + 40 ∨ a + 56 ≤ i → i < e ∨ e + 8 ≤ i → i < e + l ∨ e + l + 8 ≤ i → m' i = m i

/-- The writes of `PeiCreateHob`. -/
def hobWritten (m : Memory) (a e t l : Nat) : Memory :=
  write (write (write (write m e (genericHeader t l)) (a + 48) (toLE 8 (e + l))) (e + l)
    (genericHeader hobTypeEndOfHobList sizeOfGenericHeader)) (a + 40) (toLE 8 (e + l + 8))

theorem hobWritten_frame (m : Memory) (a e t l i : Nat) (h1 : i < a + 40 ∨ a + 56 ≤ i) (h2 : i < e ∨ e + 8 ≤ i)
    (h3 : i < e + l ∨ e + l + 8 ≤ i) : hobWritten m a e t l i = m i := by
  unfold hobWritten
  rw [write_outside _ _ _ _ (by rw [toLE_length]; omega), write_outside _ _ _ _ (by rw [genericHeader_length]; omega),
    write_outside _ _ _ _ (by rw [toLE_length]; omega), write_outside _ _ _ _ (by rw [genericHeader_length]; omega)]

theorem hobWritten_newHob {m : Memory} {a e t l : Nat} (hbehind : a + 56 ≤ e) (ht : t < 2 ^ 16) (hl : l < 2 ^ 16)
    (h8 : 8 ≤ l) : NewHob m (hobWritten m a e t l) a e t l := by
  have hheader : ∀ i, e ≤ i → i < e + 8 → hobWritten m a e t l i = write m e (genericHeader t l) i := by
    intro i h1 h2
    unfold hobWritten
    rw [write_outside _ _ _ _ (by rw [toLE_length]; omega),
      write_outside _ _ _ _ (by rw [genericHeader_length]; omega), write_outside _ _ _ _ (by rw [toLE_length]; omega)]
  obtain ⟨h1, h2⟩ := header_congr hheader
  obtain ⟨h3, h4⟩ := header_at m e t l ht hl
  exact ⟨h1.trans h3, h2.trans h4, hobWritten_frame m a e t l⟩

theorem Table.hobWritten {m : Memory} {a e top t l : Nat} (ht : Table m a e top) (h8 : 8 ≤ l)
    (hroom : e + l + 8 ≤ top) : Table (hobWritten m a e t l) a (e + l) top where
  atEnd := by
    have hb := ht.behind
    have hf := ht.fits
    unfold Pei.hobWritten efiEndOfHobList
    rw [readLE_write_other _ _ _ _ _ (by rw [toLE_length]; omega),
      readLE_write_other _ _ _ _ _ (by rw [genericHeader_length]; omega), readLE_write_same _ _ _ _ (by omega)]
  atBottom := by
    have hf := ht.fits
    exact readLE_write_same _ _ _ _ (by omega)
  atTop := by
    have hb := ht.behind
    refine Eq.trans (readLE_congr _ _ _ _ fun i h1 h2 => ?_) ht.atTop
    exact hobWritten_frame m a e t l i (by omega) (by omega) (by omega)
  behind := by have := ht.behind; omega
  room := hroom
  fits := ht.fits
  ending := by
    have hb := ht.behind
    unfold Pei.hobWritten
    have hheader := header_at (write (write m e (genericHeader t l)) (a + 48) (toLE 8 (e + l))) (e + l)
      hobTypeEndOfHobList sizeOfGenericHeader (by decide) (by decide)
    exact (readLE_write_other _ _ _ _ _ (by rw [toLE_length]; omega)).trans hheader.1

theorem createHob_fails {core : PeiCoreInstance} {e top : Nat} (ht : Table core.memory core.hobList e top)
    (type length : Nat) (hroom : top < e + roundUp8 length + 8) :
    peiCreateHob core type length = (.outOfResources, core.hobList, core) := by
  have h1 := ht.room
  unfold peiCreateHob
  rw [if_pos]
  rw [ht.atTop, ht.atBottom, uint64Sub_of_le h1 ht.fits]
  omega

theorem createHob_done {core : PeiCoreInstance} {e top : Nat} (ht : Table core.memory core.hobList e top)
    (type length : Nat) (hroom : e + roundUp8 length + 8 ≤ top) :
    peiCreateHob core type length =
      (.success, e, { core with memory := Pei.hobWritten core.memory core.hobList e type (roundUp8 length) }) := by
  have h1 := ht.room
  have h2 := ht.fits
  unfold peiCreateHob
  rw [if_neg (by rw [ht.atTop, ht.atBottom, uint64Sub_of_le h1 h2]; omega)]
  simp only [ht.atEnd, Nat.mod_eq_of_lt (show e + roundUp8 length < 2 ^ 64 by omega)]
  rfl

/-! ## The invariant -/

/-- The HOBs `rest` follow the table up to `e`, and the memory from `top` on is taken. -/
structure HeapOk (base length : Nat) (s : Heap) (rest : List Nat) (e top : Nat) : Prop where
  installed : s.core.peiMemoryInstalled = true
  first : s.core.hobList = base
  handoff : hobType s.core.memory base = hobTypeHandoff ∧ hobLength s.core.memory base = sizeOfHandoffTable
  table : Table s.core.memory base e top
  list : HobList s.core.memory (base + 56) rest e
  below : top ≤ base + length
  created : ∀ c ∈ s.created, c.1 ∈ rest ∧ c.2 ≤ hobLength s.core.memory c.1
  placed : ∀ r ∈ s.handed, (base + 64 ≤ r.1 ∧ r.1 + r.2 ≤ e) ∨ (top ≤ r.1 ∧ r.1 + r.2 ≤ base + length)
  headers : ∀ r ∈ s.handed, ∀ h ∈ rest, Apart r (h, 8)
  apart : s.handed.Pairwise Apart

theorem Table.congr {m m' : Memory} {a e top : Nat} (ht : Table m a e top)
    (heq : ∀ i, a + 32 ≤ i → i < a + 56 → m' i = m i) (hend : ∀ i, e ≤ i → i < e + 8 → m' i = m i) :
    Table m' a e top where
  atEnd := (readLE_congr _ _ _ _ fun i h1 h2 => heq i (by omega) (by omega)).trans ht.atEnd
  atBottom := (readLE_congr _ _ _ _ fun i h1 h2 => heq i (by omega) (by omega)).trans ht.atBottom
  atTop := (readLE_congr _ _ _ _ fun i h1 h2 => heq i (by omega) (by omega)).trans ht.atTop
  behind := ht.behind
  room := ht.room
  fits := ht.fits
  ending := (header_congr hend).1.trans ht.ending

namespace HeapOk
variable {base length e top : Nat} {s : Heap} {rest : List Nat}

theorem wellFormed (h : HeapOk base length s rest e top) : WellFormed base length s := by
  have hbehind := h.table.behind
  refine ⟨base :: rest, ?_⟩
  refine ⟨?_, ?_, ?_, fun c hc => ⟨List.mem_cons_of_mem _ (h.created c hc).1, (h.created c hc).2⟩, ?_, h.apart, ?_⟩
  · rw [h.table.atBottom, h.table.atTop]
    exact h.table.room
  · rw [h.table.atEnd]
    refine ⟨rfl, ?_, ?_, ?_, ?_⟩ <;> simp only [h.handoff]
    · decide
    · decide
    · decide
    · exact h.list
  · rw [h.table.atEnd]
    exact h.table.ending
  · intro r hr
    have := h.below
    have := h.table.room
    rcases h.placed r hr with ⟨h1, h2⟩ | ⟨h1, h2⟩ <;> omega
  · intro r hr x hx
    rw [h.table.atEnd] at hx
    have hroom := h.table.room
    simp only [List.cons_append, List.mem_cons, List.mem_append, List.not_mem_nil, or_false] at hx
    rcases hx with rfl | hx | rfl
    · exact .inr (by rcases h.placed r hr with ⟨h1, -⟩ | ⟨h1, -⟩ <;> simp only [sizeOfGenericHeader] <;> omega)
    · exact h.headers r hr x hx
    · rcases h.placed r hr with ⟨-, h2⟩ | ⟨h1, -⟩
      · exact .inl h2
      · exact .inr (by simp only [sizeOfGenericHeader]; omega)

/-- A memory with the same table and the same headers. -/
theorem congr (h : HeapOk base length s rest e top) {m : Memory}
    (htable : ∀ i, base ≤ i → i < base + 56 → m i = s.core.memory i)
    (hrest : ∀ x ∈ rest, ∀ i, x ≤ i → i < x + 8 → m i = s.core.memory i)
    (hend : ∀ i, e ≤ i → i < e + 8 → m i = s.core.memory i) :
    HeapOk base length { s with core := { s.core with memory := m } } rest e top where
  installed := h.installed
  first := h.first
  handoff := by
    obtain ⟨h1, h2⟩ := header_congr fun i hi1 hi2 => htable i hi1 (by omega)
    exact ⟨h1.trans h.handoff.1, h2.trans h.handoff.2⟩
  table := h.table.congr (fun i h1 h2 => htable i (by omega) h2) hend
  list := h.list.congr fun x hx => header_congr (hrest x hx)
  below := h.below
  created := fun c hc =>
    ⟨(h.created c hc).1, by rw [(header_congr (hrest c.1 (h.created c hc).1)).2]; exact (h.created c hc).2⟩
  placed := h.placed
  headers := h.headers
  apart := h.apart

/-- `PeiCreateHob` puts a HOB of `l` bytes where the list ended. -/
theorem newHob (h : HeapOk base length s rest e top) {t l : Nat} (ht : t < 2 ^ 16) (hend : t ≠ hobTypeEndOfHobList)
    (hl : l < 2 ^ 16) (h8 : 8 ≤ l) (hdvd : 8 ∣ l) (hroom : e + l + 8 ≤ top) :
    HeapOk base length { s with core := { s.core with memory := hobWritten s.core.memory base e t l } }
      (rest ++ [e]) (e + l) top := by
  have hbehind := h.table.behind
  have hnew := hobWritten_newHob (m := s.core.memory) hbehind ht hl h8
  have hold : ∀ x ∈ rest, ∀ i, x ≤ i → i < x + 8 → hobWritten s.core.memory base e t l i = s.core.memory i := by
    intro x hx i h1 h2
    have := h.list.mem hx
    exact hnew.frame i (by omega) (by omega) (by omega)
  have hheader : ∀ x ∈ rest, hobType (hobWritten s.core.memory base e t l) x = hobType s.core.memory x ∧
      hobLength (hobWritten s.core.memory base e t l) x = hobLength s.core.memory x :=
    fun x hx => header_congr (hold x hx)
  refine ⟨h.installed, h.first, ?_, h.table.hobWritten h8 hroom, ?_, h.below, ?_, ?_, ?_, h.apart⟩
  · obtain ⟨h1, h2⟩ := header_congr (h := base) fun i hi1 hi2 =>
      hnew.frame i (.inl (by omega)) (.inl (by omega)) (.inl (by omega))
    exact ⟨h1.trans h.handoff.1, h2.trans h.handoff.2⟩
  · have hsnoc := (h.list.congr hheader).snoc (by rw [hnew.type]; exact hend) (by rw [hnew.length]; omega)
      (by rw [hnew.length]; exact hdvd)
    rwa [hnew.length] at hsnoc
  · intro c hc
    obtain ⟨h1, h2⟩ := h.created c hc
    exact ⟨List.mem_append_left _ h1, by rw [(hheader _ h1).2]; exact h2⟩
  · intro r hr
    exact (h.placed r hr).imp (fun hp => ⟨hp.1, by omega⟩) id
  · intro r hr x hx
    rcases List.mem_append.mp hx with hx | hx
    · exact h.headers r hr x hx
    · obtain rfl := List.mem_singleton.mp hx
      rcases h.placed r hr with hp | hp
      · exact .inl hp.2
      · exact .inr (by simp only; omega)

theorem logCreated (h : HeapOk base length s rest e top) {c : Nat × Nat} (hc : c.1 ∈ rest)
    (hlen : c.2 ≤ hobLength s.core.memory c.1) :
    HeapOk base length { s with created := s.created ++ [c] } rest e top :=
  { h with
    created := fun d hd => by
      rcases List.mem_append.mp hd with hd | hd
      · exact h.created d hd
      · obtain rfl := List.mem_singleton.mp hd
        exact ⟨hc, hlen⟩ }

/-- A range is handed out that is apart from those before. -/
theorem logHanded (h : HeapOk base length s rest e top) {r : Nat × Nat}
    (hplaced : (base + 64 ≤ r.1 ∧ r.1 + r.2 ≤ e) ∨ (top ≤ r.1 ∧ r.1 + r.2 ≤ base + length))
    (hheaders : ∀ x ∈ rest, Apart r (x, 8)) (hapart : ∀ r' ∈ s.handed, Apart r' r) :
    HeapOk base length { s with handed := s.handed ++ [r] } rest e top :=
  { h with
    placed := fun r' hr' => by
      rcases List.mem_append.mp hr' with hr' | hr'
      · exact h.placed r' hr'
      · obtain rfl := List.mem_singleton.mp hr'
        exact hplaced
    headers := fun r' hr' => by
      rcases List.mem_append.mp hr' with hr' | hr'
      · exact h.headers r' hr'
      · obtain rfl := List.mem_singleton.mp hr'
        exact hheaders
    apart := by
      refine List.pairwise_append.mpr ⟨h.apart, List.pairwise_singleton _ _, fun r' hr' x hx => ?_⟩
      obtain rfl := List.mem_singleton.mp hx
      exact hapart r' hr' }

/-- The top of the free memory comes down. -/
theorem lower (h : HeapOk base length s rest e top) {top' : Nat} (hle : top' ≤ top) (hroom : e + 8 ≤ top') :
    HeapOk base length { s with core := setFreeMemoryTop s.core top' } rest e top' := by
  have hset : setFreeMemoryTop s.core top' =
      { s.core with memory := write s.core.memory (base + 32) (toLE 8 top') } := by
    rw [setFreeMemoryTop, if_pos h.installed, ← h.first]
  have hbehind := h.table.behind
  have hfits := h.table.fits
  have hframe : ∀ i, i < base + 32 ∨ base + 40 ≤ i →
      write s.core.memory (base + 32) (toLE 8 top') i = s.core.memory i :=
    fun i hi => write_outside _ _ _ _ (by rw [toLE_length]; omega)
  have hold : ∀ x, x + 8 ≤ base + 32 ∨ base + 40 ≤ x →
      hobType (write s.core.memory (base + 32) (toLE 8 top')) x = hobType s.core.memory x ∧
        hobLength (write s.core.memory (base + 32) (toLE 8 top')) x = hobLength s.core.memory x :=
    fun x hx => header_congr fun i h1 h2 => hframe i (by omega)
  have hrest : ∀ x ∈ rest, x + 8 ≤ base + 32 ∨ base + 40 ≤ x := fun x hx => by
    have := (h.list.mem hx).1
    omega
  rw [hset]
  refine ⟨h.installed, h.first, ?_, ?_, h.list.congr fun x hx => hold x (hrest x hx), by have := h.below; omega, ?_,
    ?_, h.headers, h.apart⟩
  · obtain ⟨h1, h2⟩ := hold base (.inl (by omega))
    exact ⟨h1.trans h.handoff.1, h2.trans h.handoff.2⟩
  · refine ⟨?_, ?_, readLE_write_same _ _ _ _ (by omega), hbehind, hroom, by omega, ?_⟩
    · exact (readLE_write_other _ _ _ _ _ (by rw [toLE_length]; omega)).trans h.table.atEnd
    · exact (readLE_write_other _ _ _ _ _ (by rw [toLE_length]; omega)).trans h.table.atBottom
    · exact (hold e (by omega)).1.trans h.table.ending
  · intro c hc
    obtain ⟨h1, h2⟩ := h.created c hc
    exact ⟨h1, by rw [(hold _ (hrest _ h1)).2]; exact h2⟩
  · intro r hr
    exact (h.placed r hr).imp id fun hp => ⟨by omega, hp.2⟩

/-! ## Each call keeps it -/

/-- A successful `PeiCreateHob`, with a note of the length asked for. -/
theorem createHob (h : HeapOk base length s rest e top) {t n : Nat} (ht : t < 2 ^ 16) (hend : t ≠ hobTypeEndOfHobList)
    (h8 : 8 ≤ n) (hn : n ≤ 65528) (hroom : e + roundUp8 n + 8 ≤ top) :
    peiCreateHob s.core t n =
        (.success, e, { s.core with memory := hobWritten s.core.memory base e t (roundUp8 n) }) ∧
      HeapOk base length
        { s with core := { s.core with memory := hobWritten s.core.memory base e t (roundUp8 n) }
                 created := s.created ++ [(e, n)] } (rest ++ [e]) (e + roundUp8 n) top := by
  obtain ⟨hle, hdvd, hlt⟩ := roundUp8_spec h8 hn
  have hnew := h.newHob ht hend hlt (Nat.le_trans h8 hle) hdvd hroom
  refine ⟨?_, hnew.logCreated (c := (e, n)) (by simp) ?_⟩
  · exact (createHob_done (h.first.symm ▸ h.table) t n hroom).trans (by simp only [h.first])
  · rw [(hobWritten_newHob h.table.behind ht hlt (Nat.le_trans h8 hle)).length]
    exact hle

theorem step_createHob (h : HeapOk base length s rest e top) {t n : Nat} {s' : Heap} (ht : t < 2 ^ 16)
    (h8 : 8 ≤ n) (hn : n ≤ 65528) (hend : t ≠ hobTypeEndOfHobList ∨ freeMemory s < roundUp8 n)
    (hs : step s (.createHob t n) = some s') : ∃ rest e top, HeapOk base length s' rest e top := by
  by_cases hroom : e + roundUp8 n + 8 ≤ top
  · have hfree : ¬freeMemory s < roundUp8 n := by
      rw [freeMemory, h.first, h.table.atTop, h.table.atBottom, uint64Sub_of_le h.table.room h.table.fits]
      omega
    obtain ⟨hcall, hok⟩ := h.createHob ht (hend.resolve_right hfree) h8 hn hroom
    simp only [step, hcall, Option.some.injEq] at hs
    exact ⟨_, _, _, hs ▸ hok⟩
  · have hcall := createHob_fails (h.first.symm ▸ h.table) t n (by omega)
    simp only [step, hcall, Option.some.injEq] at hs
    obtain rfl : s = s' := hs
    exact ⟨_, _, _, h⟩

theorem step_allocatePool (h : HeapOk base length s rest e top) {size : Nat} {s' : Heap}
    (hsize : size ≤ 65520 ∨ 65528 ≤ size) (hs : step s (.allocatePool size) = some s') :
    ∃ rest e top, HeapOk base length s' rest e top := by
  rcases hsize with hsize | hsize
  · have hsum : (sizeOfMemoryPool + size) % 2 ^ 16 = 8 + size := Nat.mod_eq_of_lt (by simp only [sizeOfMemoryPool]; omega)
    have hcond : ¬0x10000 - sizeOfMemoryPool ≤ size := by simp only [sizeOfMemoryPool]; omega
    by_cases hroom : e + roundUp8 (8 + size) + 8 ≤ top
    · obtain ⟨hcall, hok⟩ := h.createHob (t := hobTypeMemoryPool) (by decide) (by decide) (Nat.le_add_right 8 size)
        (by omega) hroom
      obtain ⟨hle, -, -⟩ := roundUp8_spec (Nat.le_add_right 8 size) (by omega)
      simp only [step, peiAllocatePool, if_neg hcond, hsum, hcall, Option.some.injEq] at hs
      have hbehind := h.table.behind
      refine ⟨_, _, _, hs ▸ hok.logHanded (r := (e + sizeOfMemoryPool, size)) ?_ ?_ ?_⟩
      · exact .inl (by simp only [sizeOfMemoryPool]; omega)
      · intro x hx
        rcases List.mem_append.mp hx with hx | hx
        · have := h.list.mem hx
          exact .inr (by simp only [sizeOfMemoryPool]; omega)
        · obtain rfl := List.mem_singleton.mp hx
          exact .inr (Nat.le_refl _)
      · intro r hr
        rcases h.placed r hr with hp | hp
        · exact .inl (by simp only [sizeOfMemoryPool]; omega)
        · exact .inr (by simp only [sizeOfMemoryPool]; omega)
    · have hcall := createHob_fails (h.first.symm ▸ h.table) hobTypeMemoryPool (8 + size) (by omega)
      simp only [step, peiAllocatePool, if_neg hcond, hsum, hcall, Option.some.injEq] at hs
      obtain rfl : s = s' := hs
      exact ⟨_, _, _, h⟩
  · have hcond : 0x10000 - sizeOfMemoryPool ≤ size := by simp only [sizeOfMemoryPool]; omega
    simp only [step, peiAllocatePool, if_pos hcond, Option.some.injEq] at hs
    obtain rfl : s = s' := hs
    exact ⟨_, _, _, h⟩

theorem freeMemoryTop_eq (h : HeapOk base length s rest e top) : freeMemoryTop s.core = top := by
  rw [freeMemoryTop, if_pos h.installed, h.first]
  exact h.table.atTop

theorem freeMemoryBottom_eq (h : HeapOk base length s rest e top) : freeMemoryBottom s.core = e + 8 := by
  rw [freeMemoryBottom, if_pos h.installed, h.first]
  exact h.table.atBottom

/-- The HOB of a page allocation, with what `BuildMemoryAllocationHob` puts into it. -/
theorem buildMemoryAllocationHob (h : HeapOk base length s rest e top) (address n memoryType : Nat)
    (hroom : e + sizeOfMemoryAllocation + 8 ≤ top) :
    HeapOk base length
      { s with core := Pei.buildMemoryAllocationHob s.core address n memoryType
               created := s.created ++ [(e, sizeOfMemoryAllocation)] } (rest ++ [e]) (e + sizeOfMemoryAllocation) top := by
  obtain ⟨hcall, hok⟩ := h.createHob (t := hobTypeMemoryAllocation) (n := sizeOfMemoryAllocation) (by decide) (by decide)
    (by decide) (by decide) hroom
  have hsize : (allocDescriptor address n memoryType).length = 40 := by simp [allocDescriptor]
  have hout : ∀ m i, i < e + 8 ∨ e + 48 ≤ i → write m (e + 8) (allocDescriptor address n memoryType) i = m i :=
    fun m i hi => write_outside _ _ _ _ (by rw [hsize]; omega)
  have hbehind := h.table.behind
  have hwritten := hok.congr (m := write (hobWritten s.core.memory base e hobTypeMemoryAllocation
      (roundUp8 sizeOfMemoryAllocation)) (e + 8) (allocDescriptor address n memoryType))
    (fun i _ h2 => hout _ i (.inl (by omega))) ?_ fun i h1 _ => hout _ i (.inr h1)
  · unfold Pei.buildMemoryAllocationHob
    rw [hcall]
    exact hwritten
  · intro x hx i h1 h2
    rcases List.mem_append.mp hx with hx | hx
    · have := h.list.mem hx
      exact hout _ i (.inl (by omega))
    · obtain rfl := List.mem_singleton.mp hx
      exact hout _ i (.inl h2)

/-- Memory from the top down to `top - n` is handed out and gets its HOB. -/
theorem carve (h : HeapOk base length s rest e top) {n : Nat} (memoryType : Nat)
    (hroom : e + 8 + sizeOfMemoryAllocation + n ≤ top) :
    HeapOk base length
      { core := Pei.buildMemoryAllocationHob (setFreeMemoryTop s.core (top - n)) (top - n) n memoryType
        handed := s.handed ++ [(top - n, n)]
        created := s.created ++ [(e, sizeOfMemoryAllocation)] } (rest ++ [e]) (e + sizeOfMemoryAllocation) (top - n) := by
  simp only [sizeOfMemoryAllocation] at hroom
  have hlow := h.lower (Nat.sub_le top n) (by omega)
  have hbuilt := hlow.buildMemoryAllocationHob (top - n) n memoryType (by simp only [sizeOfMemoryAllocation]; omega)
  have hbelow := h.below
  have hplaced : (base + 64 ≤ top - n ∧ top - n + n ≤ e + sizeOfMemoryAllocation) ∨
      (top - n ≤ top - n ∧ top - n + n ≤ base + length) := .inr ⟨Nat.le_refl _, by omega⟩
  have hheaders : ∀ x ∈ rest ++ [e], Apart (top - n, n) (x, 8) := fun x hx => by
    have hend := hbuilt.table.room
    have := (hbuilt.list.mem hx).2
    exact .inr (by simp only; omega)
  have hapart : ∀ r ∈ s.handed, Apart r (top - n, n) := fun r hr => by
    rcases h.placed r hr with hp | hp
    · exact .inl (by simp only; omega)
    · exact .inr (by simp only; omega)
  have hlogged := hbuilt.logHanded (r := (top - n, n)) hplaced hheaders hapart
  simpa only using hlogged

theorem step_allocatePages (h : HeapOk base length s rest e top) {memoryType pages : Nat} {s' : Heap}
    (hfit : allocatable memoryType → PagesFit s pages) (hs : step s (.allocatePages memoryType pages) = some s') :
    ∃ rest e top, HeapOk base length s' rest e top := by
  by_cases htype : allocatable memoryType = true
  · obtain ⟨hbottom, hpages⟩ := hfit htype
    rw [h.first, h.table.atBottom, h.table.atTop] at hbottom hpages
    have haligned := h.lower (Nat.sub_le top (top % efiPageSize)) hbottom
    have htop := haligned.freeMemoryTop_eq
    have hlow := haligned.freeMemoryBottom_eq
    have hfits := haligned.table.fits
    simp only at htop hlow hfits
    have hcond : ¬(¬s.core.peiMemoryInstalled = true ∧ ¬s.core.switchStackSignal = true) := fun hc => hc.1 h.installed
    by_cases hfull : sizeToPages (top - top % efiPageSize - (e + 8)) ≤ pages
    · have hcall : peiAllocatePages s.core memoryType pages =
          (.outOfResources, 0, setFreeMemoryTop s.core (top - top % efiPageSize)) := by
        unfold peiAllocatePages
        rw [if_neg (by simpa using htype), if_neg hcond, h.freeMemoryTop_eq]
        simp only [htop, hlow, uint64Sub_of_le hbottom hfits]
        rw [if_pos hfull]
      simp only [step, hcall, Option.some.injEq] at hs
      exact ⟨_, _, _, hs ▸ haligned⟩
    · have hroom := hpages.resolve_left hfull
      have hlen : pages * efiPageSize % 2 ^ 64 = pages * efiPageSize :=
        Nat.mod_eq_of_lt (by simp only [efiPageSize] at hroom hfits ⊢; omega)
      have hle : pages * efiPageSize ≤ top - top % efiPageSize := Nat.le_trans (Nat.le_add_left _ _) hroom
      have hcarved := haligned.lower (Nat.sub_le _ (pages * efiPageSize))
        (by simp only [sizeOfMemoryAllocation] at hroom; omega)
      have hbase := hcarved.freeMemoryTop_eq
      simp only at hbase
      have hcall : peiAllocatePages s.core memoryType pages =
          (.success, top - top % efiPageSize - pages * efiPageSize,
            Pei.buildMemoryAllocationHob
              (setFreeMemoryTop (setFreeMemoryTop s.core (top - top % efiPageSize))
                (top - top % efiPageSize - pages * efiPageSize))
              (top - top % efiPageSize - pages * efiPageSize) (pages * efiPageSize) memoryType) := by
        unfold peiAllocatePages
        rw [if_neg (by simpa using htype), if_neg hcond, h.freeMemoryTop_eq]
        simp only [htop, hlow, uint64Sub_of_le hbottom hfits, hlen]
        rw [if_neg hfull]
        simp only [uint64Sub_of_le hle hfits, hbase]
      simp only [step, hcall, h.first, h.table.atEnd, Option.some.injEq] at hs
      subst hs
      exact ⟨_, _, _, haligned.carve memoryType hroom⟩
  · have hcall : peiAllocatePages s.core memoryType pages = (.invalidParameter, 0, s.core) := by
      unfold peiAllocatePages
      rw [if_pos (by simpa using htype)]
    simp only [step, hcall, Option.some.injEq] at hs
    obtain rfl : s = s' := hs
    exact ⟨_, _, _, h⟩

/-- A caller stores into a range or into the body of a HOB. -/
theorem step_store (h : HeapOk base length s rest e top) {address : Nat} {bytes : List UInt8} {s' : Heap}
    (hallowed : Allowed s (.store address bytes)) (hs : step s (.store address bytes) = some s') :
    ∃ rest e top, HeapOk base length s' rest e top := by
  obtain rfl := Option.some.inj hs
  have hroom := h.table.room
  have hbehind := h.table.behind
  have hout : ∀ i, i < address ∨ address + bytes.length ≤ i → write s.core.memory address bytes i = s.core.memory i :=
    fun i hi => write_outside _ _ _ _ hi
  rcases hallowed with ⟨r, hr, h1, h2⟩ | ⟨c, hc, h1, h2⟩
  · have hplaced := h.placed r hr
    refine ⟨_, _, _, h.congr (fun i _ hi => hout i (by omega)) (fun x hx i hi1 hi2 => hout i ?_)
      fun i hi1 hi2 => hout i (by omega)⟩
    rcases h.headers r hr x hx with hapart | hapart <;> simp only at hapart <;> omega
  · obtain ⟨hin, hlen⟩ := h.created c hc
    have hc := h.list.mem hin
    simp only [sizeOfGenericHeader] at h1
    refine ⟨_, _, _, h.congr (fun i _ hi => hout i (by omega)) (fun x hx i hi1 hi2 => hout i ?_)
      fun i hi1 hi2 => hout i (by omega)⟩
    have := h.list.mem hx
    rcases h.list.apart hin hx with hle | hle
    · rcases h.list.apart hx hin with hle' | hle'
      · omega
      · omega
    · omega

theorem step_ok (h : HeapOk base length s rest e top) {c : Call} {s' : Heap} (hc : Allowed s c)
    (hs : step s c = some s') : ∃ rest e top, HeapOk base length s' rest e top := by
  cases c with
  | createHob type n => exact h.step_createHob hc.1.1 hc.1.2.1 hc.1.2.2 hc.2 hs
  | allocatePool size => exact h.step_allocatePool hc hs
  | allocatePages memoryType pages => exact h.step_allocatePages hc hs
  | store address bytes => exact h.step_store hc hs

end HeapOk

/-! ## Every run -/

theorem start_ok (m : Memory) {bootMode base length : Nat} (hroom : 64 ≤ length) (hfits : base + length < 2 ^ 64) :
    HeapOk base length (start m bootMode base length) [] (base + 56) (base + length) := by
  have htop : (base + length) % 2 ^ 64 = base + length := Nat.mod_eq_of_lt hfits
  have hat := write_at (write m (base + 56) (genericHeader hobTypeEndOfHobList sizeOfGenericHeader)) base
    (handoffTable bootMode (base + length) base (base + length) (base + 56 + 8) (base + 56))
  have hend := header_at m (base + 56) hobTypeEndOfHobList sizeOfGenericHeader (by decide) (by decide)
  have hout : ∀ i, base + 56 ≤ i → (start m bootMode base length).core.memory i =
      write m (base + 56) (genericHeader hobTypeEndOfHobList sizeOfGenericHeader) i := fun i hi =>
    write_outside _ _ _ _ (.inr (by simp [handoffTable]; omega))
  have hmemory : (start m bootMode base length).core.memory =
      write (write m (base + 56) (genericHeader hobTypeEndOfHobList sizeOfGenericHeader)) base
        (handoffTable bootMode (base + length) base (base + length) (base + 56 + 8) (base + 56)) := by
    simp only [start, peiCoreBuildHobHandoffInfoTable, htop, sizeOfHandoffTable, sizeOfGenericHeader]
  rw [← hmemory] at hat
  simp only [handoffTable, at_append, genericHeader, List.length_append, toLE_length] at hat
  obtain ⟨⟨⟨⟨⟨⟨⟨⟨⟨htype, hlength⟩, -⟩, -⟩, -⟩, -⟩, -⟩, hfreeTop⟩, hbottom⟩, hlist⟩ := hat
  exact {
    installed := rfl
    first := rfl
    handoff := ⟨at_readLE _ _ _ _ htype (by decide), at_readLE _ _ _ _ hlength (by decide)⟩
    table := {
      atEnd := at_readLE _ _ _ _ hlist (by omega)
      atBottom := at_readLE _ _ _ _ hbottom (by omega)
      atTop := at_readLE _ _ _ _ hfreeTop (by omega)
      behind := Nat.le_refl _
      room := by omega
      fits := hfits
      ending := (header_congr fun i h1 _ => hout i h1).1.trans hend.1 }
    list := rfl
    below := Nat.le_refl _
    created := fun c hc => nomatch hc
    placed := fun r hr => nomatch hr
    headers := fun r hr => nomatch hr
    apart := .nil }

theorem heap_wellFormed (m : Memory) {bootMode base length : Nat} {calls : List Call} {s : Heap}
    (hroom : 64 ≤ length) (hfits : base + length < 2 ^ 64)
    (hrun : Run step Allowed (start m bootMode base length) calls s) : WellFormed base length s := by
  have hok : ∃ rest e top, HeapOk base length s rest e top :=
    hrun.invariant (fun s => ∃ rest e top, HeapOk base length s rest e top) ⟨_, _, _, start_ok m hroom hfits⟩
      fun _ _ _ ⟨_, _, _, h⟩ hc hs => h.step_ok hc hs
  obtain ⟨_, _, _, h⟩ := hok
  exact h.wellFormed

/-- Pool, pages and HOBs in a heap of 64 pages, with calls that fail. -/
def sampleCalls : List Call :=
  [.createHob 4 100, .allocatePool 3000, .allocatePages 4 3, .store 0x13D000 [1, 2, 3], .allocatePages 0 1,
    .allocatePool 70000, .allocatePages 6 100, .createHob 4 65528, .allocatePool 65520]

theorem heap_wellFormed_sample :
    ∃ s, Run step Allowed (start (fun _ => 0) 0 0x100000 0x40000) sampleCalls s ∧
      s.handed = [(0x1000A8, 3000), (0x13D000, 0x3000), (0x110C90, 65520)] ∧ WellFormed 0x100000 0x40000 s := by
  obtain ⟨s, hs, hhanded⟩ := Option.map_eq_some_iff.mp
    (show (sampleCalls.foldlM (fun s c => if Allowed s c then step s c else none)
        (start (fun _ => 0) 0 0x100000 0x40000)).map (·.handed) =
      some [(0x1000A8, 3000), (0x13D000, 0x3000), (0x110C90, 65520)] by decide +kernel)
  obtain ⟨-, hrun⟩ := Run.of_guarded hs
  exact ⟨s, hrun, hhanded, heap_wellFormed _ (by decide) (by decide) hrun⟩

/-- A call with arguments of their types, and a HOB not shorter than its header. -/
def Proper (s : Heap) : Call → Prop
  | .createHob type length => type < 2 ^ 16 ∧ sizeOfGenericHeader ≤ length ∧ length < 2 ^ 16
  | .allocatePool size => size < 2 ^ 64
  | .allocatePages _ pages => pages < 2 ^ 64
  | .store address bytes => Allowed s (.store address bytes)

/-- The length of a pool of 65521 bytes is rounded up to 0, so the next one gets the same buffer. -/
theorem rounded_pool_overlaps :
    ∃ s, Run step Proper (start (fun _ => 0) 0 0x100000 0x40000) [.allocatePool 65521, .allocatePool 65521] s ∧
      s.handed = [(0x100040, 65521), (0x100040, 65521)] ∧ ¬WellFormed 0x100000 0x40000 s := by
  obtain ⟨s, hs, hhanded⟩ := Option.map_eq_some_iff.mp
    (show ([.allocatePool 65521, .allocatePool 65521].foldlM step (start (fun _ => 0) 0 0x100000 0x40000)).map
        (·.handed) = some [(0x100040, 65521), (0x100040, 65521)] by decide +kernel)
  refine ⟨s, Run.of_foldlM ?_ hs, hhanded, fun ⟨_, hok⟩ => ?_⟩
  · intro s c hc
    simp only [List.mem_cons, List.not_mem_nil, or_false, or_self] at hc
    subst hc
    exact (by decide : 65521 < 2 ^ 64)
  · have hapart := hok.apart
    rw [hhanded] at hapart
    exact absurd hapart (by decide)

end Udk.Pei
