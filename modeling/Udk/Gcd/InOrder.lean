import Udk.Gcd.ServiceSpec

/-! # The maps stay in order -/

namespace Udk.Gcd

/-- Each map covers its space from the first to the last address, without a gap or an overlap. -/
structure InOrder (sizeOfMemorySpace sizeOfIoSpace : Nat) (s : State) : Prop where
  memory : Tiled 0 s.memorySpaceMap (2 ^ sizeOfMemorySpace)
  io : Tiled 0 s.ioSpaceMap (2 ^ sizeOfIoSpace)

/-- The call is for a range that wraps, and one entry contains both of its ends and passes the check. -/
def Call.Wraps (s : State) : Call → Prop
  | .addMemorySpace _ b l _ => Gcd.Wraps (checkEntry .addMemory b.toNat l.toNat 0) s.memorySpaceMap b.toNat l.toNat
  | .internalAddMemorySpace _ b l _ =>
    Gcd.Wraps (checkEntry .addMemory b.toNat l.toNat 0) s.memorySpaceMap b.toNat l.toNat
  | .allocateMemorySpace a t n l b _ _ =>
    AllocateWraps (coreAllocateSpaceCheckEntry .allocateMemory t .nonExistent) a n l.toNat (b.map UInt64.toNat)
      s.memorySpaceMap
  | .freeMemorySpace b l => Gcd.Wraps (checkEntry .freeMemory b.toNat l.toNat 0) s.memorySpaceMap b.toNat l.toNat
  | .removeMemorySpace b l => Gcd.Wraps (checkEntry .removeMemory b.toNat l.toNat 0) s.memorySpaceMap b.toNat l.toNat
  | .setMemorySpaceAttributes b l a =>
    Gcd.Wraps (checkEntry .setAttributesMemory b.toNat l.toNat a) s.memorySpaceMap b.toNat l.toNat
  | .addIoSpace _ b l => Gcd.Wraps (checkEntry .addIo b.toNat l.toNat 0) s.ioSpaceMap b.toNat l.toNat
  | .allocateIoSpace a t n l b _ _ =>
    AllocateWraps (coreAllocateSpaceCheckEntry .allocateIo .nonExistent t) a n l.toNat (b.map UInt64.toNat)
      s.ioSpaceMap
  | .freeIoSpace b l => Gcd.Wraps (checkEntry .freeIo b.toNat l.toNat 0) s.ioSpaceMap b.toNat l.toNat
  | .removeIoSpace b l => Gcd.Wraps (checkEntry .removeIo b.toNat l.toNat 0) s.ioSpaceMap b.toNat l.toNat
  | .promoteMemoryResource => False

section
variable {map map' : List Entry} {hi baseAddress length : Nat} {check : Space → EfiStatus}
  {env : Environment} {request : Nat}
  {gDxeCoreImageHandle : Handle} {gcdMemoryType : GcdMemoryType} {gcdIoType : GcdIoType} {status : EfiStatus}
  {capabilities : UInt64} {N M : Nat} {s s' : State}

/-! ## Adding -/

theorem coreInternalAddMemorySpace_spec (env : Environment) (request : Nat) (gcdMemoryType : GcdMemoryType)
    (capabilities : UInt64) (h : Tiled 0 map hi) (hi' : hi ≤ 2 ^ 64) (hb : baseAddress < 2 ^ 64)
    (hl : length < 2 ^ 64) (hw : ¬ Wraps (checkEntry .addMemory baseAddress length 0) map baseAddress length) :
    ∃ status map', coreInternalAddMemorySpace env request map gcdMemoryType baseAddress length capabilities =
        some (status, map') ∧
      Outcome (checkEntry .addMemory baseAddress length 0)
        (convertEntry .addMemory gcdMemoryType .nonExistent capabilities 0) hi baseAddress length map status map' := by
  unfold coreInternalAddMemorySpace
  split
  · exact ⟨_, _, rfl, .failed (by decide)⟩
  · obtain ⟨status, map', heq, ho, -⟩ := coreConvertSpace_spec env request .addMemory gcdMemoryType .nonExistent
      capabilities 0 h hi' hb hl hw
    exact ⟨_, _, heq, ho⟩

theorem coreAddIoSpace_spec (env : Environment) (request : Nat) (gcdIoType : GcdIoType) (h : Tiled 0 map hi)
    (hi' : hi ≤ 2 ^ 64) (hb : baseAddress < 2 ^ 64) (hl : length < 2 ^ 64)
    (hw : ¬ Wraps (checkEntry .addIo baseAddress length 0) map baseAddress length) :
    ∃ status map', coreAddIoSpace env request map gcdIoType baseAddress length = some (status, map') ∧
      Outcome (checkEntry .addIo baseAddress length 0) (convertEntry .addIo .nonExistent gcdIoType 0 0) hi
        baseAddress length map status map' := by
  unfold coreAddIoSpace
  split
  · exact ⟨_, _, rfl, .failed (by decide)⟩
  · obtain ⟨status, map', heq, ho, -⟩ := coreConvertSpace_spec env request .addIo .nonExistent gcdIoType 0 0 h hi' hb hl hw
    exact ⟨_, _, heq, ho⟩

/-- A page below the end of the space does not wrap. -/
theorem not_wraps (h : baseAddress + length ≤ 2 ^ 64) : ¬ Wraps check map baseAddress length := fun hw => by
  have := hw.1
  omega

theorem allocatePagesLoop_tiled {pages : Nat} (env : Environment) (gDxeCoreImageHandle : Handle)
    (gcdMemoryType : GcdMemoryType) (request : Nat) (status : EfiStatus) (h : Tiled 0 map hi) (hi' : hi ≤ 2 ^ 63)
    (hb : baseAddress + pages * efiPageSize ≤ 2 ^ 63) :
    ∃ status' map', allocatePagesLoop env gDxeCoreImageHandle gcdMemoryType pages request baseAddress status map =
      some (status', map') ∧ Tiled 0 map' hi := by
  induction pages generalizing request baseAddress status map with
  | zero => exact ⟨_, _, rfl, h⟩
  | succ pages ih =>
    unfold efiPageSize at hb
    have hw : ¬ AllocateWraps (coreAllocateSpaceCheckEntry .allocateMemory gcdMemoryType .nonExistent) .address
        efiPageShift efiPageSize (some baseAddress) map := by
      rintro ⟨b, hb', hwrap⟩
      obtain rfl := Option.some.inj hb'
      exact not_wraps (by unfold efiPageSize; omega) hwrap
    obtain ⟨st, b, map', heq, ho, -⟩ := coreAllocateSpace_spec env request .allocateMemory gcdMemoryType .nonExistent
      gDxeCoreImageHandle none h hi' (show efiPageSize < 2 ^ 64 by decide)
      (fun b hb' => by obtain rfl := Option.some.inj hb'; omega) hw
    rw [allocatePagesLoop, coreAllocateMemorySpace, heq]
    have hbase : uint64 (baseAddress + efiPageSize) = baseAddress + efiPageSize :=
      Nat.mod_eq_of_lt (by unfold efiPageSize; omega)
    simp only [hbase]
    exact ih _ _ (ho.tiled h) (by unfold efiPageSize; omega)

theorem coreAddMemorySpace_tiled (env : Environment) (gDxeCoreImageHandle : Handle) (gcdMemoryType : GcdMemoryType)
    (capabilities : UInt64) (h : Tiled 0 map hi) (hi' : hi ≤ 2 ^ 63) (hb : baseAddress < 2 ^ 64)
    (hl : length < 2 ^ 64) (hw : ¬ Wraps (checkEntry .addMemory baseAddress length 0) map baseAddress length) :
    ∃ status map', coreAddMemorySpace env gDxeCoreImageHandle map gcdMemoryType baseAddress length capabilities =
      some (status, map') ∧ Tiled 0 map' hi := by
  obtain ⟨st, map₁, heq, ho⟩ := coreInternalAddMemorySpace_spec env 0 gcdMemoryType capabilities h (by omega) hb
    hl hw
  have h₁ := ho.tiled h
  unfold coreAddMemorySpace
  rw [heq]
  simp only
  split
  · rename_i hst
    obtain ⟨rfl, -⟩ := hst
    -- the pages lie below the end of the range that was added
    have hinside : baseAddress + length ≤ hi := by
      cases ho with
      | failed hne => exact absurd rfl hne
      | converted hc => exact hc.inside
    have hpage := alignDown_le baseAddress efiPageShift
    have hlen := alignDown_le (uint64 (baseAddress + length + (2 ^ 64 - alignDown baseAddress efiPageShift)))
      efiPageShift
    have huint : uint64 (baseAddress + length + (2 ^ 64 - alignDown baseAddress efiPageShift)) =
        baseAddress + length - alignDown baseAddress efiPageShift := by
      unfold uint64
      rw [show baseAddress + length + (2 ^ 64 - alignDown baseAddress efiPageShift) =
        baseAddress + length - alignDown baseAddress efiPageShift + 2 ^ 64 by omega, Nat.add_mod_right,
        Nat.mod_eq_of_lt (by omega)]
    rw [huint] at hlen ⊢
    generalize alignDown baseAddress efiPageShift = pageBase at hpage hlen ⊢
    generalize alignDown (baseAddress + length - pageBase) efiPageShift = pageLength at hlen ⊢
    have hw' : ¬ AllocateWraps (coreAllocateSpaceCheckEntry .allocateMemory gcdMemoryType .nonExistent) .address
        efiPageShift pageLength (some pageBase) map₁ := by
      rintro ⟨b, hb', hwrap⟩
      obtain rfl := Option.some.inj hb'
      exact not_wraps (by omega) hwrap
    obtain ⟨st', b, map₂, heq', ho', -⟩ := coreAllocateSpace_spec env 1 .allocateMemory gcdMemoryType .nonExistent
      gDxeCoreImageHandle none h₁ hi' (show pageLength < 2 ^ 64 by omega)
      (fun b hb' => by obtain rfl := Option.some.inj hb'; omega) hw'
    have h₂ := ho'.tiled h₁
    rw [coreAllocateMemorySpace, heq']
    have hpages := Nat.div_mul_le_self pageLength efiPageSize
    obtain ⟨st'', map₃, heq'', h₃⟩ := allocatePagesLoop_tiled env gDxeCoreImageHandle gcdMemoryType 2 st' h₂ hi'
      (show pageBase + pageLength / efiPageSize * efiPageSize ≤ 2 ^ 63 by omega)
    cases st' with
    | success => exact ⟨_, _, rfl, h₂⟩
    | _ => exact ⟨_, _, heq'', h₃⟩
  · exact ⟨_, _, rfl, h₁⟩

/-! ## Calls -/

theorem InOrder.initialState (N M : Nat) : InOrder N M (initialState N M) := by
  have h : ∀ k, Tiled 0 [initialEntry k] (2 ^ k) := fun k =>
    ⟨rfl, Nat.zero_le _, Nat.sub_add_cancel (Nat.two_pow_pos k)⟩
  exact ⟨h N, h M⟩

theorem InOrder.setMemory (h : InOrder N M s) (hm : Tiled 0 map' (2 ^ N)) :
    InOrder N M { s with memorySpaceMap := map' } :=
  ⟨hm, h.io⟩

theorem InOrder.setIo (h : InOrder N M s) (hm : Tiled 0 map' (2 ^ M)) :
    InOrder N M { s with ioSpaceMap := map' } :=
  ⟨h.memory, hm⟩

theorem promoteEntry_place (e : Entry) : (promoteEntry gDxeCoreImageHandle e).baseAddress = e.baseAddress ∧
    (promoteEntry gDxeCoreImageHandle e).endAddress = e.endAddress := by
  unfold promoteEntry
  split <;> exact ⟨rfl, rfl⟩

/-- A call that does not wrap has a result, and leaves the maps in order. -/
theorem call_inOrder {c : Call} (gDxeCoreImageHandle : Handle) (env : Environment) (hN : N < 64) (hM : M < 64)
    (h : InOrder N M s) (hw : ¬ c.Wraps s) :
    ∃ status s', call gDxeCoreImageHandle env s c = some (status, s') ∧ InOrder N M s' := by
  have hN' : 2 ^ N ≤ 2 ^ 63 := Nat.pow_le_pow_right (by decide) (by omega)
  have hM' : 2 ^ M ≤ 2 ^ 63 := Nat.pow_le_pow_right (by decide) (by omega)
  have hconvert : ∀ {map : List Entry} {hi : Nat} (operation : Operation) (t : GcdMemoryType) (u : GcdIoType)
      (b l c a : UInt64), Tiled 0 map hi → hi ≤ 2 ^ 63 →
      ¬ Wraps (checkEntry operation b.toNat l.toNat a) map b.toNat l.toNat →
      ∃ r, coreConvertSpace env 0 operation t u b.toNat l.toNat c a map = some r ∧ Tiled 0 r.2 hi := by
    intro map hi operation t u b l c a hm hi' hw
    obtain ⟨st, map', heq, ho, -⟩ := coreConvertSpace_spec env 0 operation t u c a hm (by omega) b.toNat_lt
      l.toNat_lt hw
    exact ⟨_, heq, ho.tiled hm⟩
  have hallocate : ∀ {map : List Entry} {hi : Nat} (operation : Operation) (ty : GcdAllocateType)
      (t : GcdMemoryType) (u : GcdIoType) (n : Nat) (l : UInt64) (b : Option UInt64) (i d : Handle),
      Tiled 0 map hi → hi ≤ 2 ^ 63 →
      ¬ AllocateWraps (coreAllocateSpaceCheckEntry operation t u) ty n l.toNat (b.map UInt64.toNat) map →
      ∃ r, coreAllocateSpace env 0 operation ty t u n l.toNat (b.map UInt64.toNat) i d map = some r ∧
        Tiled 0 r.2.2 hi := by
    intro map hi operation ty t u n l b i d hm hi' hw
    obtain ⟨st, b', map', heq, ho, -⟩ := coreAllocateSpace_spec env 0 operation t u i d hm hi' l.toNat_lt
      (fun x hx => by obtain ⟨y, -, rfl⟩ := Option.map_eq_some_iff.mp hx; exact y.toNat_lt) hw
    exact ⟨_, heq, ho.tiled hm⟩
  cases c with
  | addMemorySpace t b l c =>
    obtain ⟨st, map', heq, hm⟩ := coreAddMemorySpace_tiled env gDxeCoreImageHandle t c h.memory hN' b.toNat_lt l.toNat_lt hw
    exact ⟨_, _, by rw [call, heq]; rfl, h.setMemory hm⟩
  | internalAddMemorySpace t b l c =>
    obtain ⟨st, map', heq, ho⟩ := coreInternalAddMemorySpace_spec env 0 t c h.memory (by omega) b.toNat_lt l.toNat_lt hw
    exact ⟨_, _, by rw [call, heq]; rfl, h.setMemory (ho.tiled h.memory)⟩
  | allocateMemorySpace ty t n l b i d =>
    obtain ⟨r, heq, hm⟩ := hallocate .allocateMemory ty t .nonExistent n l b i d h.memory hN' hw
    exact ⟨_, _, by rw [call, coreAllocateMemorySpace, heq]; rfl, h.setMemory hm⟩
  | freeMemorySpace b l =>
    obtain ⟨r, heq, hm⟩ := hconvert .freeMemory .nonExistent .nonExistent b l 0 0 h.memory hN' hw
    exact ⟨_, _, by rw [call, coreFreeMemorySpace, heq]; rfl, h.setMemory hm⟩
  | removeMemorySpace b l =>
    obtain ⟨r, heq, hm⟩ := hconvert .removeMemory .nonExistent .nonExistent b l 0 0 h.memory hN' hw
    exact ⟨_, _, by rw [call, coreRemoveMemorySpace, heq]; rfl, h.setMemory hm⟩
  | setMemorySpaceAttributes b l a =>
    obtain ⟨r, heq, hm⟩ := hconvert .setAttributesMemory .nonExistent .nonExistent b l 0 a h.memory hN' hw
    exact ⟨_, _, by rw [call, coreSetMemorySpaceAttributes, heq]; rfl, h.setMemory hm⟩
  | addIoSpace t b l =>
    obtain ⟨st, map', heq, ho⟩ := coreAddIoSpace_spec env 0 t h.io (by omega)
      b.toNat_lt l.toNat_lt hw
    exact ⟨_, _, by rw [call, heq]; rfl, h.setIo (ho.tiled h.io)⟩
  | allocateIoSpace ty t n l b i d =>
    obtain ⟨r, heq, hm⟩ := hallocate .allocateIo ty .nonExistent t n l b i d h.io hM' hw
    exact ⟨_, _, by rw [call, coreAllocateIoSpace, heq]; rfl, h.setIo hm⟩
  | freeIoSpace b l =>
    obtain ⟨r, heq, hm⟩ := hconvert .freeIo .nonExistent .nonExistent b l 0 0 h.io hM' hw
    exact ⟨_, _, by rw [call, coreFreeIoSpace, heq]; rfl, h.setIo hm⟩
  | removeIoSpace b l =>
    obtain ⟨r, heq, hm⟩ := hconvert .removeIo .nonExistent .nonExistent b l 0 0 h.io hM' hw
    exact ⟨_, _, by rw [call, coreRemoveIoSpace, heq]; rfl, h.setIo hm⟩
  | promoteMemoryResource =>
    exact ⟨_, _, rfl, h.setMemory (h.memory.map fun e _ => promoteEntry_place e)⟩

/-! ## Runs -/

/-- The calls in a run of the services on maps that are new. -/
def Reachable (gDxeCoreImageHandle : Handle) (N M : Nat) (ok : State → Environment × Call → Prop) (s : State) : Prop :=
  ∃ es, Run (step gDxeCoreImageHandle) ok (initialState N M) es s

def NoWrap (s : State) (e : Environment × Call) : Prop := ¬ e.2.Wraps s

theorem Reachable.inOrder (hN : N < 64) (hM : M < 64) (h : Reachable gDxeCoreImageHandle N M NoWrap s) :
    InOrder N M s := by
  obtain ⟨es, hrun⟩ := h
  refine hrun.invariant (InOrder N M) (.initialState N M) fun s e s' hs hok hstep => ?_
  obtain ⟨st, s₁, heq, h₁⟩ := call_inOrder gDxeCoreImageHandle e.1 hN hM hs hok
  rw [step, heq] at hstep
  exact Option.some.inj hstep ▸ h₁

/-- In every run in which no call wraps, the maps are in order, and every further call has a result. -/
theorem maps_in_order (hN : N < 64) (hM : M < 64) (h : Reachable gDxeCoreImageHandle N M NoWrap s) :
    InOrder N M s ∧ ∀ e, NoWrap s e → ∃ s', step gDxeCoreImageHandle s e = some s' := by
  have hs := h.inOrder hN hM
  refine ⟨hs, fun e hok => ?_⟩
  obtain ⟨st, s', heq, -⟩ := call_inOrder gDxeCoreImageHandle e.1 hN hM hs hok
  exact ⟨s', by rw [step, heq]; rfl⟩

end

/-! ## A range that wraps -/

def sampleEnvironment : Environment := ⟨fun _ => true, none⟩

/-- The handle of the DXE core in the examples. -/
def sampleHandle : Handle := some 1

/-- Reserved memory in the middle of the space. -/
def sampleCall : Call := .addMemorySpace .reserved 0x2000 0x1000 0

/-- From 0x2000 around the end of the address space to 0xFFF. -/
def wrappedCall : Call := .addMemorySpace .reserved 0x2000 0xFFFFFFFFFFFFF000 0

/-- The state after some calls. -/
def runCalls (calls : List Call) (s : State) : Option State :=
  calls.foldlM (fun s c => step sampleHandle s (sampleEnvironment, c)) s

def sampleState : State := (runCalls [sampleCall] (initialState 36 16)).getD (initialState 36 16)

def wrappedState : State := (runCalls [wrappedCall] (initialState 36 16)).getD (initialState 36 16)

example : sampleState.memorySpaceMap.map (fun e => e.baseAddress) = [0, 0x2000, 0x3000] := by decide +kernel

theorem reachable_sampleState : Reachable sampleHandle 36 16 NoWrap sampleState :=
  ⟨[(sampleEnvironment, sampleCall)], .single (fun h => absurd h.1 (by decide)) (by decide +kernel)⟩

theorem maps_in_order_sample : InOrder 36 16 sampleState :=
  (maps_in_order (by decide) (by decide) reachable_sampleState).1

theorem reachable_wrappedState : Reachable sampleHandle 36 16 (fun _ _ => True) wrappedState :=
  ⟨[(sampleEnvironment, wrappedCall)], .single trivial (by decide +kernel)⟩

/-- A call for a range that wraps succeeds, and leaves an entry that ends below its start. -/
theorem map_out_of_order :
    Reachable sampleHandle 36 16 (fun _ _ => True) wrappedState ∧
      (call sampleHandle sampleEnvironment (initialState 36 16) wrappedCall) = some (.success, wrappedState) ∧
      (∃ e ∈ wrappedState.memorySpaceMap, e.baseAddress = 0x2000 ∧ e.endAddress = 0xFFF) ∧
      ¬ InOrder 36 16 wrappedState := by
  have hentry : ∃ e ∈ wrappedState.memorySpaceMap, e.baseAddress = 0x2000 ∧ e.endAddress = 0xFFF := by decide +kernel
  refine ⟨reachable_wrappedState, by decide +kernel, hentry, fun h => ?_⟩
  obtain ⟨e, he, hb, hend⟩ := hentry
  have := h.memory.mem he
  omega

end Udk.Gcd
