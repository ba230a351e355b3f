import Udk.Carve
import Udk.Run

/-! # Pool memory

Where the search of `CoreAllocatePoolPages` ends depends on the whole memory map. The address comes from outside,
and the search found something if it is a range of pages that the pools do not own yet.
-/

namespace Udk.Pool

inductive EfiStatus
  | success | invalidParameter | outOfResources
  deriving DecidableEq

/-- `EFI_MEMORY_TYPE`. The types that are left to OS loaders are negative. -/
abbrev MemoryType := Int

def efiBootServicesData : MemoryType := 4
def efiConventionalMemory : MemoryType := 7
def efiMaxMemoryType : MemoryType := 14

def uintn (n : Nat) : Nat := n % 2 ^ 64

def uint32 (n : Nat) : Nat := n % 2 ^ 32

def maxAddress : Nat := 2 ^ 64 - 1
def efiPageSize : Nat := 4096
def poolShift : Nat := 7
/-- `SIZE_OF_POOL_HEAD`. -/
def sizeOfPoolHead : Nat := 24
/-- `sizeof (POOL_TAIL)`. -/
def sizeOfPoolTail : Nat := 8
def poolOverhead : Nat := sizeOfPoolHead + sizeOfPoolTail
/-- `sizeof (POOL)`. -/
def sizeOfPool : Nat := 552

/-- `SIZE_TO_LIST`. -/
def sizeToList (a : Nat) : Nat := a / 2 ^ poolShift

/-- `LIST_TO_SIZE`. -/
def listToSize (a : Nat) : Nat := blockSize (2 ^ poolShift) a

/-- One page is `DEFAULT_PAGE_ALLOCATION`. -/
def maxPoolList : Nat := sizeToList efiPageSize

def maxPoolSize : Nat := maxAddress - poolOverhead

/-- `ALIGN_VARIABLE`. -/
def alignVariable (value : Nat) : Nat := uintn (value + (8 - value % 8) % 8)

/-- `EFI_SIZE_TO_PAGES`. -/
def efiSizeToPages (size : Nat) : Nat := size / efiPageSize + if size % efiPageSize ≠ 0 then 1 else 0

/-! ## The state -/

/-- `POOL`. -/
structure PoolHead where
  used : Nat
  /-- Addresses, the forward link first. -/
  freeList : Nat → List Nat

/-- `POOL_FREE` and `POOL_HEAD`, which start with different signatures. -/
inductive Header
  | poolFree (index : Nat)
  | poolHead (size : Nat) (type : MemoryType)
  deriving DecidableEq

structure PageRange where
  base : Nat
  pages : Nat
  type : MemoryType
  deriving DecidableEq

def PageRange.limit (r : PageRange) : Nat := r.base + r.pages * efiPageSize

/-- A block that is handed out, with its header and tail. The code keeps no list of them. -/
structure Block where
  head : Nat
  size : Nat
  type : MemoryType
  deriving DecidableEq

structure State where
  /-- The `POOL` of a type, in `mPoolHead` or in a block of its own. -/
  mPoolHead : MemoryType → PoolHead
  /-- The types of OS loaders that have a `POOL`, and its address. -/
  mPoolHeadList : List (MemoryType × Nat)
  memory : Nat → Option Header
  /-- `POOL_TAIL`. -/
  tails : Nat → Option Nat
  /-- The pages that `CoreConvertPages` gave to a pool. -/
  owned : List PageRange
  live : List Block

/-- `CoreInitializePool`. -/
def initialState : State where
  mPoolHead := fun _ => ⟨0, fun _ => []⟩
  mPoolHeadList := []
  memory := fun _ => none
  tails := fun _ => none
  owned := []
  live := []

def State.setUsed (s : State) (type : MemoryType) (used : Nat) : State :=
  { s with mPoolHead := fun t => if t = type then { s.mPoolHead t with used } else s.mPoolHead t }

def State.setFreeList (s : State) (type : MemoryType) (index : Nat) (l : List Nat) : State :=
  { s with mPoolHead := fun t =>
      if t = type then { s.mPoolHead t with freeList := fun i => if i = index then l else (s.mPoolHead t).freeList i }
      else s.mPoolHead t }

def State.write (s : State) (a : Nat) (h : Header) : State :=
  { s with memory := fun x => if x = a then some h else s.memory x }

def State.writeTail (s : State) (a : Nat) (size : Nat) : State :=
  { s with tails := fun x => if x = a then some size else s.tails x }

/-! ## Pages -/

/-- Whether the search can end at an address. -/
def State.mayFind (s : State) (pages start : Nat) : Prop :=
  start ≠ 0 ∧ start % efiPageSize = 0 ∧ pages ≠ 0 ∧ start + pages * efiPageSize ≤ 2 ^ 64 ∧
    ∀ r ∈ s.owned, r.limit ≤ start ∨ start + pages * efiPageSize ≤ r.base

instance (s : State) (pages start : Nat) : Decidable (s.mayFind pages start) :=
  inferInstanceAs (Decidable (_ ∧ _ ∧ _ ∧ _ ∧ _))

def coreAllocatePoolPages (s : State) (type : MemoryType) (pages start : Nat) : Nat × State :=
  if s.mayFind pages start then
    (start, { s with owned := ⟨start, pages, type⟩ :: s.owned })
  else (0, s)

/-- What is left of a range when the addresses from `lo` to `hi` are taken out. -/
def PageRange.without (lo hi : Nat) (r : PageRange) : List PageRange :=
  [⟨r.base, (min r.limit lo - r.base) / efiPageSize, r.type⟩,
    ⟨max r.base hi, (r.limit - max r.base hi) / efiPageSize, r.type⟩].filter (·.pages ≠ 0)

def coreFreePoolPages (s : State) (memory pages : Nat) : State :=
  { s with owned := s.owned.flatMap (·.without memory (memory + pages * efiPageSize)) }

/-! ## `CoreAllocatePool` -/

/-- Writes a `POOL_FREE` and puts it on its list. -/
def insertFree (type : MemoryType) (s : State) (b : Nat × Nat) : State :=
  (s.write b.1 (.poolFree b.2)).setFreeList type b.2 (b.1 :: (s.mPoolHead type).freeList b.2)

/-- The blocks of a page, from the class of the first one. -/
def pageBlocks (page index : Nat) : List (Nat × Nat) :=
  carve (2 ^ poolShift) (page + efiPageSize) index page

/-- The header, the tail and the account of a block. -/
def fillHead (s : State) (type : MemoryType) (size head : Nat) : State :=
  let s := s.write head (.poolHead (uint32 size) type)
  let s := s.writeTail (uintn (head + uint32 size + (2 ^ 64 - sizeOfPoolTail))) (uint32 size)
  let s := s.setUsed type (uintn ((s.mPoolHead type).used + size))
  { s with live := ⟨head, size, type⟩ :: s.live }

/-- Takes the first block off a list that is not empty. -/
def takeFree (s : State) (type : MemoryType) (size : Nat) : Nat × State :=
  match (s.mPoolHead type).freeList (sizeToList size) with
  | [] => (0, s)
  | head :: rest =>
    (head + sizeOfPoolHead, fillHead (s.setFreeList type (sizeToList size) rest) type size head)

/-- `CoreAllocatePoolI` once it has the `POOL`. -/
def allocateEntry (s : State) (type : MemoryType) (size start : Nat) : Nat × State :=
  let size := uintn (alignVariable size + poolOverhead)
  let index := sizeToList size
  if maxPoolList ≤ index then
    let (head, s) := coreAllocatePoolPages s type (efiSizeToPages size) start
    if head = 0 then (0, s) else (head + sizeOfPoolHead, fillHead s type size head)
  else if (s.mPoolHead type).freeList index = [] then
    let (page, s) := coreAllocatePoolPages s type (efiSizeToPages efiPageSize) start
    if page = 0 then (0, s) else takeFree ((pageBlocks page index).foldl (insertFree type) s) type size
  else takeFree s type size

/-- Whether there is a `POOL`. The address is for the pages of a new one. -/
def lookupPoolHead (s : State) (type : MemoryType) (start : Nat) : Bool × State :=
  if 0 ≤ type ∧ type < efiMaxMemoryType then (true, s)
  else if type < 0 then
    if type ∈ s.mPoolHeadList.map Prod.fst then (true, s)
    else
      let (pool, s) := allocateEntry s efiBootServicesData sizeOfPool start
      if pool = 0 then (false, s)
      else
        (true, { s with
          mPoolHead := fun t => if t = type then ⟨0, fun _ => []⟩ else s.mPoolHead t
          mPoolHeadList := (type, pool) :: s.mPoolHeadList })
  else (false, s)

def coreAllocatePoolI (s : State) (poolType : MemoryType) (size poolStart start : Nat) : Nat × State :=
  let (found, s) := lookupPoolHead s poolType poolStart
  if found then allocateEntry s poolType size start else (0, s)

/-- The status, `*Buffer` if it is written, and the state. -/
def coreAllocatePool (s : State) (poolType : MemoryType) (size poolStart start : Nat) :
    EfiStatus × Option Nat × State :=
  if efiMaxMemoryType ≤ poolType ∧ poolType ≤ 0x7fffffff ∨ poolType = efiConventionalMemory then
    (.invalidParameter, none, s)
  else if maxPoolSize < size then (.outOfResources, some 0, s)
  else
    let (buffer, s) := coreAllocatePoolI s poolType size poolStart start
    if buffer = 0 then (.outOfResources, some 0, s) else (.success, some buffer, s)

/-! ## `CoreFreePool` -/

/-- The size and the type in the header, if header and tail pass the checks. -/
def checkHead (s : State) (buffer : Nat) : Option (Nat × MemoryType) :=
  match s.memory (buffer - sizeOfPoolHead) with
  | some (.poolHead size type) =>
    if s.tails (uintn (buffer - sizeOfPoolHead + size + (2 ^ 64 - sizeOfPoolTail))) = some size then some (size, type)
    else none
  | _ => none

def Header.isFree : Option Header → Bool
  | some (.poolFree _) => true
  | _ => false

/-- Gives the page back if all of its blocks are free. -/
def freePage (s : State) (page : Nat) : State :=
  match s.memory page with
  | some (.poolFree index) =>
    let blocks := pageBlocks page index
    if blocks.all fun b => Header.isFree (s.memory b.1) then
      coreFreePoolPages
        { s with mPoolHead := fun t =>
            { s.mPoolHead t with freeList := fun i =>
                ((s.mPoolHead t).freeList i).filter (· ∉ blocks.map Prod.fst) } }
        page (efiSizeToPages efiPageSize)
    else s
  | _ => s

/-- `CoreFreePoolI` between the checks and the release of the `POOL`. -/
def freeEntry (s : State) (head size : Nat) (type : MemoryType) : State :=
  let s := { s with live := s.live.filter (·.head ≠ head) }
  let s := s.setUsed type (uintn ((s.mPoolHead type).used + (2 ^ 64 - size)))
  let index := sizeToList size
  if maxPoolList ≤ index then coreFreePoolPages s head (efiSizeToPages size)
  else freePage (insertFree type s (head, index)) (head / efiPageSize * efiPageSize)

/-- Releases the `POOL` of an OS loader's type when nothing of it is left. It is boot services data itself, so the
call for it ends before this point. -/
def releasePool (s : State) (type : MemoryType) : State :=
  if type < 0 ∧ (s.mPoolHead type).used = 0 then
    match s.mPoolHeadList.find? (·.1 = type) with
    | none => s
    | some (_, pool) =>
      let s := { s with mPoolHeadList := s.mPoolHeadList.filter (·.1 ≠ type) }
      match checkHead s pool with
      | none => s
      | some (size, type) => freeEntry s (pool - sizeOfPoolHead) size type
  else s

def coreFreePoolI (s : State) (buffer poolStart : Nat) : EfiStatus × State :=
  match checkHead s buffer with
  | none => (.invalidParameter, s)
  | some (size, type) =>
    let (found, s) := lookupPoolHead s type poolStart
    if found then (.success, releasePool (freeEntry s (buffer - sizeOfPoolHead) size type) type)
    else (.invalidParameter, s)

def coreFreePool (s : State) (buffer poolStart : Nat) : EfiStatus × State :=
  if buffer = 0 then (.invalidParameter, s) else coreFreePoolI s buffer poolStart

/-! ## The pools as a system -/

inductive Event
  | allocate (poolType : MemoryType) (size poolStart start : Nat)
  | free (buffer poolStart : Nat)

/-- Whether the caller may free a buffer: it is one that was handed out to it, or the checks fail. -/
def State.mayFree (s : State) (buffer : Nat) : Prop :=
  checkHead s buffer = none ∨
    (∃ b ∈ s.live, buffer = b.head + sizeOfPoolHead) ∧ buffer ∉ s.mPoolHeadList.map Prod.snd

instance (s : State) (buffer : Nat) : Decidable (s.mayFree buffer) := inferInstanceAs (Decidable (_ ∨ _ ∧ _))

def step (s : State) : Event → Option State
  | .allocate poolType size poolStart start => some (coreAllocatePool s poolType size poolStart start).2.2
  | .free buffer poolStart => if s.mayFree buffer then some (coreFreePool s buffer poolStart).2 else none

/-- Whether the size that an event asks for meets `p`. -/
def Event.Asks (p : Nat → Prop) : Event → Prop
  | .allocate _ size _ _ => p size
  | .free _ _ => True

instance (p : Nat → Prop) [DecidablePred p] : DecidablePred (Event.Asks p)
  | .allocate _ size _ _ => inferInstanceAs (Decidable (p size))
  | .free _ _ => isTrue trivial

/-- The states that runs lead to in which every size meets `p`. -/
def Reachable (p : Nat → Prop) (s : State) : Prop := ∃ es, Run step (fun _ e => e.Asks p) initialState es s

end Udk.Pool
