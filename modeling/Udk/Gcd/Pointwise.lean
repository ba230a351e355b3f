import Udk.Gcd.InOrder

/-! # A service changes its own range and its own fields -/

namespace Udk.Gcd

/-- The map that an operation works on. -/
def State.mapOf (s : State) : Operation → List Entry
  | .addMemory | .allocateMemory | .freeMemory | .removeMemory | .setAttributesMemory => s.memorySpaceMap
  | .addIo | .allocateIo | .freeIo | .removeIo => s.ioSpaceMap

def Operation.size (sizeOfMemorySpace sizeOfIoSpace : Nat) : Operation → Nat
  | .addMemory | .allocateMemory | .freeMemory | .removeMemory | .setAttributesMemory => sizeOfMemorySpace
  | .addIo | .allocateIo | .freeIo | .removeIo => sizeOfIoSpace

/-- Two spaces differ only in the fields that the operation owns. -/
structure Operation.Owns (operation : Operation) (old new : Space) : Prop where
  memoryType : operation ≠ .addMemory → operation ≠ .removeMemory →
    new.gcdMemoryType = old.gcdMemoryType ∧ new.capabilities = old.capabilities
  ioType : operation ≠ .addIo → operation ≠ .removeIo → new.gcdIoType = old.gcdIoType
  attributes : operation ≠ .setAttributesMemory → new.attributes = old.attributes
  handles : operation ≠ .allocateMemory → operation ≠ .freeMemory → operation ≠ .allocateIo → operation ≠ .freeIo →
    new.imageHandle = old.imageHandle ∧ new.deviceHandle = old.deviceHandle

theorem convertEntry_owns (operation : Operation) (gcdMemoryType : GcdMemoryType) (gcdIoType : GcdIoType)
    (capabilities attributes : UInt64) (e : Space) :
    operation.Owns e (convertEntry operation gcdMemoryType gcdIoType capabilities attributes e) := by
  cases operation <;> constructor <;> simp [convertEntry]

section
variable {map map' : List Entry} {hi baseAddress length : Nat} {check : Space → EfiStatus}
  {convert : Space → Space} {N M : Nat} {s : State} {gDxeCoreImageHandle : Handle}

theorem InOrder.mapOf (h : InOrder N M s) (operation : Operation) :
    Tiled 0 (s.mapOf operation) (2 ^ operation.size N M) := by
  cases operation <;> first | exact h.memory | exact h.io

theorem Operation.size_lt (hN : N < 64) (hM : M < 64) (operation : Operation) : operation.size N M < 64 := by
  cases operation <;> first | exact hN | exact hM

/-! ## The services -/

/-- In a run in which no call wraps, a call that succeeds changes exactly the addresses of its range, and in them
exactly what its operation owns; every entry that overlaps the range passed the check of the operation. -/
theorem services_pointwise (hN : N < 64) (hM : M < 64) (h : Reachable gDxeCoreImageHandle N M NoWrap s) :
    (∀ env request operation gcdMemoryType gcdIoType baseAddress length capabilities attributes map',
      baseAddress + length ≤ 2 ^ operation.size N M →
      coreConvertSpace env request operation gcdMemoryType gcdIoType baseAddress length capabilities attributes
        (s.mapOf operation) = some (.success, map') →
      Converted (checkEntry operation baseAddress length attributes)
          (convertEntry operation gcdMemoryType gcdIoType capabilities attributes) (2 ^ operation.size N M)
          baseAddress length (s.mapOf operation) map' ∧
        setCpuAttributes env operation baseAddress length attributes = .success ∧
        ∀ e, operation.Owns e (convertEntry operation gcdMemoryType gcdIoType capabilities attributes e)) ∧
    (∀ env request operation gcdMemoryType gcdIoType alignment baseAddress length imageHandle deviceHandle b map',
      baseAddress + length ≤ 2 ^ operation.size N M →
      coreAllocateSpace env request operation .address gcdMemoryType gcdIoType alignment length (some baseAddress)
        imageHandle deviceHandle (s.mapOf operation) = some (.success, b, map') →
      b = baseAddress ∧
        Converted (coreAllocateSpaceCheckEntry operation gcdMemoryType gcdIoType)
          (fun e => { e with imageHandle, deviceHandle }) (2 ^ operation.size N M) baseAddress length
          (s.mapOf operation) map') := by
  have hs := h.inOrder hN hM
  constructor
  · intro env request operation gcdMemoryType gcdIoType baseAddress length capabilities attributes map' hle heq
    have hsize : 2 ^ operation.size N M ≤ 2 ^ 63 :=
      Nat.pow_le_pow_right (by decide) (by have := operation.size_lt hN hM; omega)
    obtain ⟨st, m, heq', ho, hcpu⟩ := coreConvertSpace_spec env request operation gcdMemoryType gcdIoType
      capabilities attributes (hs.mapOf operation) (by omega) (show baseAddress < 2 ^ 64 by omega)
      (show length < 2 ^ 64 by omega) (not_wraps (by omega))
    obtain ⟨rfl, rfl⟩ : st = .success ∧ m = map' := by simpa using heq'.symm.trans heq
    refine ⟨?_, hcpu rfl, convertEntry_owns _ _ _ _ _⟩
    cases ho with
    | failed hne => exact absurd rfl hne
    | converted hc => exact hc
  · intro env request operation gcdMemoryType gcdIoType alignment baseAddress length imageHandle deviceHandle b map'
      hle heq
    have hsize : 2 ^ operation.size N M ≤ 2 ^ 63 :=
      Nat.pow_le_pow_right (by decide) (by have := operation.size_lt hN hM; omega)
    have hw : ¬ AllocateWraps (coreAllocateSpaceCheckEntry operation gcdMemoryType gcdIoType) .address alignment length
        (some baseAddress) (s.mapOf operation) := by
      rintro ⟨x, hx, hwrap⟩
      obtain rfl := Option.some.inj hx
      exact not_wraps (by omega) hwrap
    obtain ⟨st, b', m, heq', ho, haddr⟩ := coreAllocateSpace_spec env request operation gcdMemoryType gcdIoType
      imageHandle deviceHandle (hs.mapOf operation) hsize
      (show length < 2 ^ 64 by omega) (fun x hx => by obtain rfl := Option.some.inj hx; omega) hw
    obtain ⟨rfl, rfl, rfl⟩ : st = .success ∧ b' = b ∧ m = map' := by simpa using heq'.symm.trans heq
    obtain rfl := Option.some.inj (haddr rfl rfl)
    refine ⟨rfl, ?_⟩
    cases ho with
    | failed hne => exact absurd rfl hne
    | converted hc => exact hc

end

/-- A part of the reserved memory is removed again. -/
def removedMap : List Entry :=
  ((coreRemoveMemorySpace sampleEnvironment 0 sampleState.memorySpaceMap 0x2800 0x100).map Prod.snd).getD []

theorem services_pointwise_sample :
    Converted (checkEntry .removeMemory 0x2800 0x100 0) (convertEntry .removeMemory .nonExistent .nonExistent 0 0)
      (2 ^ 36) 0x2800 0x100 sampleState.memorySpaceMap removedMap :=
  ((services_pointwise (by decide) (by decide) reachable_sampleState).1 sampleEnvironment 0 .removeMemory .nonExistent
    .nonExistent 0x2800 0x100 0 0 removedMap (by decide)
    (by decide +kernel)).1

/-! ## After a range that wraps -/

/-- Memory-mapped I/O at 0x1800. -/
def addedMap : List Entry :=
  ((coreInternalAddMemorySpace sampleEnvironment 0 wrappedState.memorySpaceMap .memoryMappedIo 0x1800 0x1000
    0).map Prod.snd).getD []

/-- In the map that a wrapped range leaves, a call succeeds and its range does not get the new type. -/
theorem added_elsewhere :
    Reachable sampleHandle 36 16 (fun _ _ => True) wrappedState ∧ 0x1800 + 0x1000 ≤ 2 ^ 36 ∧
      coreConvertSpace sampleEnvironment 0 .addMemory .memoryMappedIo .nonExistent 0x1800 0x1000 0 0
        wrappedState.memorySpaceMap = some (.success, addedMap) ∧
      (coreGetMemorySpaceDescriptor 0x1800 addedMap).map (fun d => d.gcdMemoryType) = some .nonExistent :=
  ⟨reachable_wrappedState, by decide, by decide +kernel, by decide +kernel⟩

end Udk.Gcd
