import Udk.PeCoff.Directory

/-! # A relocated image is relocated again for its virtual address -/

namespace Udk.PeCoff

open Bytes

/-- Where the parts of an image are, and its relocations. -/
structure Image where
  sizeOfHeaders : Nat
  directory : Nat
  blocks : List Block

def Image.directorySize (image : Image) : Nat := (directoryBytes image.blocks).length

def Image.sites (image : Image) (ctx : ImageContext) : List Site := directorySites ctx.imageAddress image.blocks

def ImageContext.ntHeader (ctx : ImageContext) : Nat := ctx.imageAddress + ctx.peCoffHeaderOffset

/-- The address that the image is linked for. -/
def linkedAddress (ctx : ImageContext) (m : Memory) : Nat :=
  readLE m (ctx.ntHeader + (layoutOf m ctx.ntHeader).imageBase) (layoutOf m ctx.ntHeader).imageBaseWidth

/-- How far the values are adjusted. -/
def adjustFor (ctx : ImageContext) (m : Memory) (baseAddress : Nat) : Nat :=
  uint64 (baseAddress + 2 ^ 64 - linkedAddress ctx m)

/-- The memory with the new `ImageBase`. -/
def rebased (ctx : ImageContext) (m : Memory) (baseAddress : Nat) : Memory :=
  storeImageBase (adjustFor ctx m baseAddress) (ctx.ntHeader + (layoutOf m ctx.ntHeader).imageBase)
    (layoutOf m ctx.ntHeader).imageBaseWidth baseAddress m

/-- What the loader makes of the memory. -/
def relocated (ctx : ImageContext) (image : Image) (m : Memory) (baseAddress : Nat) : Memory :=
  if adjustFor ctx m baseAddress ≠ 0 then
    (relocateSites (adjustFor ctx m baseAddress) (image.sites ctx) ⟨rebased ctx m baseAddress, ctx.fixupData⟩).memory
  else rebased ctx m baseAddress

/-- A loaded PE32 or PE32+ image that can be relocated. -/
structure WellFormed (ctx : ImageContext) (image : Image) (m : Memory) : Prop where
  pe : ctx.isTeImage = false
  relocations : ctx.relocationsStripped = false
  offset : ctx.peCoffHeaderOffset = ntHeaderOffset m ctx.imageAddress
  dos : readLE m ctx.imageAddress 2 = imageDosSignature → 64 ≤ ctx.peCoffHeaderOffset
  signature : readLE m ctx.ntHeader 4 = imageNtSignature
  magic : magicValue m ctx.ntHeader = imageNtOptionalHdr32Magic ∨ magicValue m ctx.ntHeader = imageNtOptionalHdr64Magic
  number : readLE m (ctx.ntHeader + (layoutOf m ctx.ntHeader).numberOfRvaAndSizes) 4 > imageDirectoryEntryBaseReloc
  directory : readLE m (ctx.ntHeader + (layoutOf m ctx.ntHeader).baseRelocDirectory) 4 = image.directory
  directorySize : readLE m (ctx.ntHeader + (layoutOf m ctx.ntHeader).baseRelocDirectory + 4) 4 = image.directorySize
  bytes : At m (ctx.imageAddress + image.directory) (directoryBytes image.blocks)
  headers : ctx.peCoffHeaderOffset + 184 ≤ image.sizeOfHeaders
  headersInImage : image.sizeOfHeaders ≤ ctx.imageSize
  behind : image.blocks ≠ [] → image.sizeOfHeaders ≤ image.directory
  notNull : 0 < ctx.imageAddress + image.directory
  inImage : image.directory + image.directorySize ≤ ctx.imageSize
  imageSize : ctx.imageSize < 2 ^ 32
  inMemory : ctx.imageAddress + ctx.imageSize ≤ 2 ^ 64
  pages : ∀ b ∈ image.blocks, b.virtualAddress < ctx.imageSize
  supported : ∀ b ∈ image.blocks, ∀ e ∈ b.entries, Supported e
  sites : ∀ s ∈ image.sites ctx,
    ctx.imageAddress + image.sizeOfHeaders ≤ s.address ∧ s.address + s.width ≤ ctx.imageAddress + ctx.imageSize
  outside : ∀ s ∈ image.sites ctx, s.address + s.width ≤ ctx.imageAddress + image.directory ∨
    ctx.imageAddress + image.directory + image.directorySize ≤ s.address
  apart : (image.sites ctx).Pairwise Site.Apart

/-- The log has `FixupDataSize` bytes, apart from the image. -/
def LogOutside (ctx : ImageContext) (m : Memory) (fixupData : Nat) : Prop :=
  fixupData + fixupDataSize m ctx.ntHeader ≤ ctx.imageAddress ∨ ctx.imageAddress + ctx.imageSize ≤ fixupData

/-- What code may change between the two relocations: all but the headers, the directory and the log. -/
structure Between (ctx : ImageContext) (image : Image) (size fixupData : Nat) (m m' : Memory) : Prop where
  headers : ∀ i, ctx.imageAddress ≤ i → i < ctx.imageAddress + image.sizeOfHeaders → m' i = m i
  directory : ∀ i, ctx.imageAddress + image.directory ≤ i →
    i < ctx.imageAddress + image.directory + image.directorySize → m' i = m i
  log : ∀ i, fixupData ≤ i → i < fixupData + size → m' i = m i

/-- A location has the value it has in an image that is relocated directly, unless it was changed in between. -/
structure RuntimeAgrees (sites : List Site) (direct m m' result : Memory) : Prop where
  value : ∀ s ∈ sites, s.value result = if s.value m' = s.value m then s.value direct else s.value m'
  elsewhere : ∀ i, (∀ s ∈ sites, ¬s.Has i) → result i = m' i

/-- A log that nothing was written to tells whether a value has changed, or this does not matter. -/
def LogTells (sites : List Site) (fixupData delta : Nat) (m m' : Memory) : Prop :=
  ∀ x ∈ slots fixupData sites,
    delta % 256 ^ x.1.width = 0 ∨ (x.2.value m = x.1.value m' ↔ x.1.value m' = x.1.value m)

variable {ctx : ImageContext} {image : Image} {m m' : Memory} {baseAddress fixupData fuel i : Nat}

theorem Image.directorySize_pos (image : Image) : image.directorySize > 0 ↔ image.blocks ≠ [] := by
  unfold Image.directorySize
  cases image.blocks with
  | nil => simp [directoryBytes]
  | cons b rest =>
    have hsize : 8 ≤ b.size := Nat.le_add_right _ _
    rw [directoryBytes_cons, List.length_append, Block.bytes_length]
    simp only [ne_eq, List.cons_ne_nil, not_false_eq_true, iff_true]
    omega

/-! ## The headers stay readable -/

/-- All of the headers but `ImageBase`. -/
def KeepsHeaders (ctx : ImageContext) (image : Image) (m m' : Memory) : Prop :=
  ∀ i, ctx.imageAddress ≤ i → i < ctx.imageAddress + image.sizeOfHeaders →
    i < ctx.ntHeader + 48 ∨ ctx.ntHeader + 56 ≤ i → m' i = m i

theorem layoutOf_cases (m : Memory) (hdr : Nat) : layoutOf m hdr = pe32Layout ∨ layoutOf m hdr = pe32PlusLayout := by
  unfold layoutOf
  split
  · exact .inl rfl
  · exact .inr rfl

namespace WellFormed

theorem field (hw : WellFormed ctx image m) (hk : KeepsHeaders ctx image m m') {o k : Nat} (hin : o + k ≤ 184)
    (hbase : o + k ≤ 48 ∨ 56 ≤ o) : readLE m' (ctx.ntHeader + o) k = readLE m (ctx.ntHeader + o) k := by
  have hheaders := hw.headers
  refine readLE_congr m m' _ k fun i h₁ h₂ => hk i ?_ ?_ ?_
  all_goals
    unfold ImageContext.ntHeader at *
    omega

theorem layout_eq (hw : WellFormed ctx image m) (hk : KeepsHeaders ctx image m m') :
    layoutOf m' ctx.ntHeader = layoutOf m ctx.ntHeader := by
  unfold layoutOf magicValue
  rw [hw.field hk (by decide) (by decide), hw.field hk (by decide) (by decide)]

theorem number_eq (hw : WellFormed ctx image m) (hk : KeepsHeaders ctx image m m') :
    readLE m' (ctx.ntHeader + (layoutOf m ctx.ntHeader).numberOfRvaAndSizes) 4 =
      readLE m (ctx.ntHeader + (layoutOf m ctx.ntHeader).numberOfRvaAndSizes) 4 := by
  obtain h | h := layoutOf_cases m ctx.ntHeader
  all_goals
    rw [h]
    exact hw.field hk (by decide) (by decide)

theorem directory_eq (hw : WellFormed ctx image m) (hk : KeepsHeaders ctx image m m') :
    readLE m' (ctx.ntHeader + (layoutOf m ctx.ntHeader).baseRelocDirectory) 4 = image.directory := by
  refine Eq.trans ?_ hw.directory
  obtain h | h := layoutOf_cases m ctx.ntHeader
  all_goals
    rw [h]
    exact hw.field hk (by decide) (by decide)

theorem directorySize_eq (hw : WellFormed ctx image m) (hk : KeepsHeaders ctx image m m') :
    readLE m' (ctx.ntHeader + (layoutOf m ctx.ntHeader).baseRelocDirectory + 4) 4 = image.directorySize := by
  refine Eq.trans ?_ hw.directorySize
  obtain h | h := layoutOf_cases m ctx.ntHeader
  all_goals
    rw [h, Nat.add_assoc]
    exact hw.field hk (by decide) (by decide)

theorem signature_eq (hw : WellFormed ctx image m) (hk : KeepsHeaders ctx image m m') :
    readLE m' ctx.ntHeader 4 = imageNtSignature :=
  (hw.field (o := 0) hk (by decide) (by decide)).trans hw.signature

/-- The DOS header comes before the NT header. -/
theorem offset_eq (hw : WellFormed ctx image m) (hk : KeepsHeaders ctx image m m') :
    ntHeaderOffset m' ctx.imageAddress = ctx.peCoffHeaderOffset := by
  have hheaders := hw.headers
  have hmagic : readLE m' ctx.imageAddress 2 = readLE m ctx.imageAddress 2 := by
    refine readLE_congr m m' _ 2 fun i h₁ h₂ => hk i h₁ (by omega) (.inl ?_)
    unfold ImageContext.ntHeader
    omega
  have hoffset := hw.offset
  unfold ntHeaderOffset at hoffset ⊢
  rw [hmagic, hoffset]
  by_cases hdos : readLE m ctx.imageAddress 2 = imageDosSignature
  · have hfar := hw.dos hdos
    rw [if_pos hdos, if_pos hdos]
    refine readLE_congr m m' _ 4 fun i h₁ h₂ => hk i (by omega) (by omega) (.inl ?_)
    unfold ImageContext.ntHeader
    omega
  · rw [if_neg hdos, if_neg hdos]

theorem fits (hw : WellFormed ctx image m) : ∀ b ∈ image.blocks, b.Fits := by
  intro b hb
  have himage := hw.imageSize
  have hin := hw.inImage
  have hpage := hw.pages b hb
  have hsize : b.size ≤ image.directorySize := by
    obtain ⟨before, behind, heq⟩ := List.append_of_mem hb
    unfold Image.directorySize directoryBytes
    rw [heq, List.flatMap_append, List.flatMap_cons, List.length_append, List.length_append, Block.bytes_length]
    omega
  exact ⟨by omega, by omega, hw.supported b hb⟩

/-! ## The log is large enough -/

theorem fixupDataSize_eq (hw : WellFormed ctx image m) : fixupDataSize m ctx.ntHeader = image.directorySize / 2 * 8 := by
  unfold fixupDataSize
  dsimp only
  rw [if_pos hw.number, hw.directorySize]

theorem logEnd_le (hw : WellFormed ctx image m) (fixupData : Nat) :
    logEnd fixupData (image.sites ctx) ≤ fixupData + fixupDataSize m ctx.ntHeader := by
  rw [hw.fixupDataSize_eq]
  cases hblocks : image.blocks with
  | nil =>
    unfold Image.sites
    rw [hblocks]
    exact Nat.le_add_right _ _
  | cons b rest =>
    have hlength := directorySites_length ctx.imageAddress image.blocks
    have hle := PeCoff.logEnd_le (image.sites ctx) (Nat.dvd_mul_left 8 ((fixupData + 7) / 8))
      (le_alignPointer fixupData (show 0 < 8 by decide))
    rw [hblocks, List.length_cons, ← hblocks] at hlength
    unfold Image.directorySize
    unfold Image.sites at hle ⊢
    omega

/-- The log is apart from all of the image. -/
theorem log_apart (hw : WellFormed ctx image m) (hlog : ∀ p ∈ ctx.fixupData, LogOutside ctx m p) {i : Nat}
    (hi : ctx.imageAddress ≤ i) (hupto : i < ctx.imageAddress + ctx.imageSize) :
    ¬LogHas ctx.fixupData (image.sites ctx) i := by
  rintro ⟨p, hp, hle, hlt⟩
  have hend := hw.logEnd_le p
  have hout := hlog p hp
  unfold LogOutside at hout
  omega

theorem separate (hw : WellFormed ctx image m) (hlog : ∀ p ∈ ctx.fixupData, LogOutside ctx m p) :
    Separate ctx.fixupData (image.sites ctx) where
  pairwise := hw.apart
  log s hs i hi := by
    obtain ⟨hfrom, hupto⟩ := hw.sites s hs
    obtain ⟨hle, hlt⟩ := hi
    exact hw.log_apart hlog (by omega) (by omega)

theorem spared (hw : WellFormed ctx image m) (hlog : ∀ p ∈ ctx.fixupData, LogOutside ctx m p) :
    Spared (ctx.imageAddress + image.directory) (directoryBytes image.blocks).length ctx.fixupData (image.sites ctx) := by
  intro i h₁ h₂
  have hin := hw.inImage
  have hsize : image.directorySize = (directoryBytes image.blocks).length := rfl
  refine ⟨fun s hs hi => ?_, hw.log_apart hlog (by omega) (by omega)⟩
  have hout := hw.outside s hs
  unfold Site.Has at hi
  omega

/-! ## The new `ImageBase` -/

theorem rebased_outside (ctx : ImageContext) (m : Memory) (baseAddress : Nat) {i : Nat}
    (hi : i < ctx.ntHeader + 48 ∨ ctx.ntHeader + 56 ≤ i) : rebased ctx m baseAddress i = m i := by
  unfold rebased storeImageBase
  split
  · refine write_outside m _ _ i ?_
    rw [toLE_length]
    obtain h | h := layoutOf_cases m ctx.ntHeader
    all_goals
      rw [h]
      simp only [pe32Layout, pe32PlusLayout]
      omega
  · rfl

theorem rebased_headers (ctx : ImageContext) (image : Image) (m : Memory) (baseAddress : Nat) :
    KeepsHeaders ctx image m (rebased ctx m baseAddress) := fun _ _ _ hi => rebased_outside ctx m baseAddress hi

/-- Behind the headers nothing has changed. -/
theorem rebased_behind (hw : WellFormed ctx image m) (baseAddress : Nat) {i : Nat}
    (hi : ctx.imageAddress + image.sizeOfHeaders ≤ i) : rebased ctx m baseAddress i = m i := by
  have hheaders := hw.headers
  refine rebased_outside ctx m baseAddress (.inr ?_)
  unfold ImageContext.ntHeader
  omega

theorem rebased_value (hw : WellFormed ctx image m) (baseAddress : Nat) {s : Site} (hs : s ∈ image.sites ctx) :
    s.value (rebased ctx m baseAddress) = s.value m := by
  refine Site.value_congr fun i hi => hw.rebased_behind baseAddress ?_
  have hfrom := (hw.sites s hs).1
  unfold Site.Has at hi
  omega

theorem rebased_bytes (hw : WellFormed ctx image m) (baseAddress : Nat) :
    At (rebased ctx m baseAddress) (ctx.imageAddress + image.directory) (directoryBytes image.blocks) := by
  by_cases hnil : image.blocks = []
  · rw [hnil]
    exact at_nil _ _
  · have hbehind := hw.behind hnil
    refine (at_congr _ _ _ _ fun i h₁ h₂ => ?_).mpr hw.bytes
    exact hw.rebased_behind baseAddress (by omega)

theorem rebased_of_zero (h : adjustFor ctx m baseAddress = 0) : rebased ctx m baseAddress = m := by
  unfold rebased storeImageBase
  rw [if_neg (not_not_intro h)]

/-! ## The image is relocated -/

theorem preparePe_eq (hw : WellFormed ctx image m) (baseAddress : Nat) : ∃ relocBase relocBaseEnd,
    preparePe ctx baseAddress m =
        .ok ⟨rebased ctx m baseAddress, adjustFor ctx m baseAddress, 0, relocBase, relocBaseEnd⟩ ∧
      (image.blocks ≠ [] → relocBase = ctx.imageAddress + image.directory) ∧
      EndsAt relocBase relocBaseEnd image.blocks := by
  have hk := rebased_headers ctx image m baseAddress
  have hprepare : preparePe ctx baseAddress m =
      if readLE (rebased ctx m baseAddress) (ctx.ntHeader + (layoutOf m ctx.ntHeader).numberOfRvaAndSizes) 4 >
            imageDirectoryEntryBaseReloc ∧
          readLE (rebased ctx m baseAddress) (ctx.ntHeader + (layoutOf m ctx.ntHeader).baseRelocDirectory + 4) 4 > 0 then
        if readLE (rebased ctx m baseAddress) (ctx.ntHeader + (layoutOf m ctx.ntHeader).baseRelocDirectory) 4 ≥
              ctx.imageSize ∨
            uint32 (readLE (rebased ctx m baseAddress) (ctx.ntHeader + (layoutOf m ctx.ntHeader).baseRelocDirectory) 4 +
              readLE (rebased ctx m baseAddress) (ctx.ntHeader + (layoutOf m ctx.ntHeader).baseRelocDirectory + 4) 4 +
              2 ^ 32 - 1) ≥ ctx.imageSize then .error (rebased ctx m baseAddress)
        else .ok ⟨rebased ctx m baseAddress, adjustFor ctx m baseAddress, 0,
          ctx.imageAddress + readLE (rebased ctx m baseAddress)
            (ctx.ntHeader + (layoutOf m ctx.ntHeader).baseRelocDirectory) 4,
          ctx.imageAddress + uint32 (readLE (rebased ctx m baseAddress)
              (ctx.ntHeader + (layoutOf m ctx.ntHeader).baseRelocDirectory) 4 +
            readLE (rebased ctx m baseAddress) (ctx.ntHeader + (layoutOf m ctx.ntHeader).baseRelocDirectory + 4) 4 +
            2 ^ 32 - 1)⟩
      else .ok ⟨rebased ctx m baseAddress, adjustFor ctx m baseAddress, 0, 0, 0⟩ := rfl
  have himage := hw.imageSize
  have hin := hw.inImage
  rw [hprepare, hw.number_eq hk, hw.directory_eq hk, hw.directorySize_eq hk]
  by_cases hpos : image.directorySize > 0
  · have hlast : uint32 (image.directory + image.directorySize + 2 ^ 32 - 1) =
        image.directory + image.directorySize - 1 := by
      unfold uint32
      omega
    rw [if_pos ⟨hw.number, hpos⟩, hlast, if_neg (by omega)]
    refine ⟨_, _, rfl, fun _ => rfl, ?_, ?_⟩
    all_goals
      unfold Image.directorySize at *
      omega
  · have hnil : image.blocks = [] := not_not.mp (mt image.directorySize_pos.mpr hpos)
    rw [if_neg fun h => hpos h.2]
    refine ⟨0, 0, rfl, fun hne => absurd hnil hne, ?_⟩
    rw [hnil]
    exact ⟨Nat.zero_le _, Nat.zero_le _⟩

theorem relocateImageFor_eq (hw : WellFormed ctx image m) (hlog : ∀ p ∈ ctx.fixupData, LogOutside ctx m p)
    (baseAddress : Nat) (hfuel : image.directorySize < fuel) : ∃ ctx',
    relocateImageFor fuel ctx baseAddress m = some (.success, ctx', relocated ctx image m baseAddress) := by
  obtain ⟨relocBase, relocBaseEnd, hprepare, hbase, hend⟩ := hw.preparePe_eq baseAddress
  rw [relocateImageFor, hw.pe, if_neg Bool.false_ne_true, hprepare]
  dsimp only
  unfold relocatePrepared relocated
  dsimp only
  by_cases hadjust : adjustFor ctx m baseAddress ≠ 0
  · rw [if_pos hadjust, if_pos hadjust]
    have hin := hw.inImage
    have hsize : image.directorySize = (directoryBytes image.blocks).length := rfl
    have hblocks : relocateBlocks ctx 0 (adjustFor ctx m baseAddress) relocBaseEnd fuel relocBase
        ⟨rebased ctx m baseAddress, ctx.fixupData⟩ = some (.relocated (relocateSites (adjustFor ctx m baseAddress)
          (image.sites ctx) ⟨rebased ctx m baseAddress, ctx.fixupData⟩)) := by
      by_cases hnil : image.blocks = []
      · unfold Image.sites
        rw [hnil] at hend ⊢
        refine relocateBlocks_eq 0 _ hw.pe nofun nofun (at_nil _ _) ?_ hend (fun h => absurd rfl h)
          (Nat.lt_of_le_of_lt (Nat.zero_le _) hfuel)
        intro i h₁ h₂
        exact absurd h₁ (by simp [directoryBytes] at h₂; omega)
      · obtain rfl := hbase hnil
        exact relocateBlocks_eq 0 _ hw.pe hw.fits hw.pages (hw.rebased_bytes baseAddress) (hw.spared hlog) hend
          (fun _ => ⟨by omega, by omega⟩) hfuel
    rw [hblocks]
    exact ⟨_, rfl⟩
  · rw [if_neg hadjust, if_neg hadjust]
    exact ⟨_, rfl⟩

theorem relocated_outside (hlog : ¬LogHas ctx.fixupData (image.sites ctx) i) (hs : ∀ s ∈ image.sites ctx, ¬s.Has i) :
    relocated ctx image m baseAddress i = rebased ctx m baseAddress i := by
  unfold relocated
  split
  · exact relocateSites_outside hs hlog
  · rfl

theorem relocated_of_zero (image : Image) (h : adjustFor ctx m baseAddress = 0) : relocated ctx image m baseAddress = m := by
  unfold relocated
  rw [if_neg (not_not_intro h), rebased_of_zero h]

theorem relocated_value (hw : WellFormed ctx image m) (hlog : ∀ p ∈ ctx.fixupData, LogOutside ctx m p)
    (baseAddress : Nat) {s : Site} (hs : s ∈ image.sites ctx) :
    s.value (relocated ctx image m baseAddress) = (s.value m + adjustFor ctx m baseAddress) % 256 ^ s.width := by
  by_cases hadjust : adjustFor ctx m baseAddress = 0
  · rw [relocated_of_zero image hadjust, hadjust, Nat.add_zero, Nat.mod_eq_of_lt (s.value_lt m)]
  · unfold relocated
    rw [if_pos hadjust, relocateSites_value (hw.separate hlog) hs, hw.rebased_value baseAddress hs]

theorem relocated_log (hw : WellFormed ctx image m) (hlog : ∀ p ∈ ctx.fixupData, LogOutside ctx m p)
    (hadjust : adjustFor ctx m baseAddress ≠ 0) (hp : fixupData ∈ ctx.fixupData) {x : Site × Site}
    (hx : x ∈ slots fixupData (image.sites ctx)) :
    x.2.value (relocated ctx image m baseAddress) = x.1.value (relocated ctx image m baseAddress) := by
  unfold relocated
  rw [if_pos hadjust]
  exact relocateSites_log (hw.separate hlog) hp hx

theorem relocated_headers (hw : WellFormed ctx image m) (hlog : ∀ p ∈ ctx.fixupData, LogOutside ctx m p)
    (baseAddress : Nat) : KeepsHeaders ctx image m (relocated ctx image m baseAddress) := by
  intro i h₁ h₂ hi
  have hheaders := hw.headersInImage
  refine (relocated_outside (hw.log_apart hlog h₁ (by omega)) fun s hs hsi => ?_).trans
    (rebased_headers ctx image m baseAddress i h₁ h₂ hi)
  have hfrom := (hw.sites s hs).1
  unfold Site.Has at hsi
  omega

theorem relocated_bytes (hw : WellFormed ctx image m) (hlog : ∀ p ∈ ctx.fixupData, LogOutside ctx m p)
    (baseAddress : Nat) :
    At (relocated ctx image m baseAddress) (ctx.imageAddress + image.directory) (directoryBytes image.blocks) := by
  refine (at_congr _ _ _ _ fun i h₁ h₂ => ?_).mpr (hw.rebased_bytes baseAddress)
  obtain ⟨hsites, hout⟩ := hw.spared hlog i h₁ h₂
  exact relocated_outside hout hsites

/-! ## It is relocated again -/

theorem runtime_eq (hw : WellFormed ctx image m) (hk : KeepsHeaders ctx image m m')
    (hat : At m' (ctx.imageAddress + image.directory) (directoryBytes image.blocks)) (virtImageBase fixupData : Nat)
    (hfuel : image.directorySize < fuel) :
    peCoffLoaderRelocateImageForRuntime fuel ctx.imageAddress virtImageBase fixupData m' =
      some (reapplySites (uint64 (virtImageBase + 2 ^ 64 - ctx.imageAddress)) (image.sites ctx) ⟨m', fixupData⟩).memory := by
  unfold peCoffLoaderRelocateImageForRuntime
  dsimp only
  have hnull := hw.notNull
  have hhdr : ctx.imageAddress + ntHeaderOffset m' ctx.imageAddress = ctx.ntHeader := by
    rw [hw.offset_eq hk, ImageContext.ntHeader]
  rw [hhdr, hw.layout_eq hk, hw.signature_eq hk, if_neg (not_not_intro rfl), hw.number_eq hk, if_pos hw.number,
    hw.directory_eq hk, hw.directorySize_eq hk, if_neg (by omega)]
  refine reapplyBlocks_eq _ _ hw.fits hat ?_ ⟨Nat.le_succ _, Nat.le_refl _⟩ hfuel
  intro i h₁ h₂
  refine ⟨fun s hs hi => ?_, nofun⟩
  have hout := hw.outside s hs
  have hsize : image.directorySize = (directoryBytes image.blocks).length := rfl
  unfold Site.Has at hi
  omega

end WellFormed

/-! ## The two adjustments are one -/

theorem Site.modulus (s : Site) : 256 ^ s.width = 2 ^ 32 ∨ 256 ^ s.width = 2 ^ 64 := by
  obtain h | h := s.isWidth
  · exact .inl ((congrArg (256 ^ ·) h).trans (show 256 ^ 4 = 2 ^ 32 by decide))
  · exact .inr ((congrArg (256 ^ ·) h).trans (show 256 ^ 8 = 2 ^ 64 by decide))

theorem adjusted_twice (s : Site) {v a l : Nat} (w : Nat) (ha : a < 2 ^ 64) (hl : l < 2 ^ 64) :
    ((v + uint64 (a + 2 ^ 64 - l)) % 256 ^ s.width + uint64 (w + 2 ^ 64 - a)) % 256 ^ s.width =
      (v + uint64 (w + 2 ^ 64 - l)) % 256 ^ s.width := by
  unfold uint64
  obtain h | h := s.modulus
  all_goals
    rw [h]
    omega

/-- A value stays where it is only when the adjustment is a multiple of the modulus. -/
theorem add_mod_eq_self {v M : Nat} (delta : Nat) (hv : v < M) : (v + delta) % M = v ↔ delta % M = 0 := by
  have hlt : delta % M < M := Nat.mod_lt delta (Nat.zero_lt_of_lt hv)
  rw [Nat.add_mod, Nat.mod_eq_of_lt hv]
  by_cases hwrap : v + delta % M < M
  · rw [Nat.mod_eq_of_lt hwrap]
    omega
  · rw [Nat.mod_eq_sub_mod (Nat.le_of_not_lt hwrap), Nat.mod_eq_of_lt (by omega)]
    omega

/-- A value is moved on rightly when its slot tells whether it has changed, or the adjustment does not matter. -/
theorem moved_iff (delta : Nat) (m' : Memory) (x : Site × Site) (v : Nat) :
    (moved delta m' x = if x.1.value m' = v then (v + delta) % 256 ^ x.1.width else x.1.value m') ↔
      delta % 256 ^ x.1.width = 0 ∨ (x.2.value m' = x.1.value m' ↔ x.1.value m' = v) := by
  have hstays := add_mod_eq_self delta (x.1.value_lt m')
  by_cases hslot : x.2.value m' = x.1.value m'
  · rw [moved_of_eq hslot]
    by_cases hv : x.1.value m' = v
    · rw [if_pos hv]
      exact iff_of_true (by rw [hv]) (.inr (iff_of_true hslot hv))
    · rw [if_neg hv, hstays]
      simp only [hslot, hv, iff_false, not_true_eq_false, or_false]
  · rw [moved_of_ne hslot]
    by_cases hv : x.1.value m' = v
    · rw [if_pos hv, ← hv, eq_comm, hstays]
      simp only [hslot, iff_true, or_false]
    · rw [if_neg hv]
      exact iff_of_true rfl (.inr (iff_of_false hslot hv))

theorem linkedAddress_lt (ctx : ImageContext) (m : Memory) : linkedAddress ctx m < 2 ^ 64 := by
  unfold linkedAddress
  obtain h | h := layoutOf_cases m ctx.ntHeader
  · rw [h]
    exact Nat.lt_trans (readLE_lt m _ 4) (by decide)
  · rw [h]
    exact readLE_lt m _ 8

theorem adjustFor_eq_zero (h : baseAddress < 2 ^ 64) :
    adjustFor ctx m baseAddress = 0 ↔ baseAddress = linkedAddress ctx m := by
  have hlinked := linkedAddress_lt ctx m
  unfold adjustFor uint64
  omega

/-! ## Both relocations together -/

theorem exists_slot {sites : List Site} {s : Site} (p : Nat) (hs : s ∈ sites) : ∃ x ∈ slots p sites, x.1 = s := by
  rw [← slots_fst p sites] at hs
  exact List.mem_map.mp hs

namespace WellFormed

variable {direct result : Memory} {delta : Nat}

theorem slot_kept (hw : WellFormed ctx image m) {before : Memory}
    (hb : Between ctx image (fixupDataSize m ctx.ntHeader) fixupData before m') {x : Site × Site}
    (hx : x ∈ slots fixupData (image.sites ctx)) : x.2.value m' = x.2.value before := by
  refine Site.value_congr fun i hi => ?_
  obtain ⟨p, hp, hle, hlt⟩ := slots_logged hx hi
  obtain rfl := Option.mem_some_iff.mp hp
  exact hb.log i hle (Nat.lt_of_lt_of_le hlt (hw.logEnd_le _))

/-- The image as it is after both relocations, against one that is relocated directly. -/
theorem agrees_iff (hw : WellFormed ctx image m) (hlog : ∀ p ∈ ctx.fixupData, LogOutside ctx m p)
    (hp : fixupData ∈ ctx.fixupData) {virtImageBase : Nat}
    (hb : Between ctx image (fixupDataSize m ctx.ntHeader) fixupData (relocated ctx image m ctx.imageAddress) m')
    (hdelta : delta = uint64 (virtImageBase + 2 ^ 64 - ctx.imageAddress))
    (hdirect : ∀ s ∈ image.sites ctx,
      s.value direct = (s.value m + adjustFor ctx m virtImageBase) % 256 ^ s.width)
    (hresult : ∀ x ∈ slots fixupData (image.sites ctx), x.1.value result = moved delta m' x)
    (helse : ∀ i, (∀ s ∈ image.sites ctx, ¬s.Has i) → result i = m' i) :
    RuntimeAgrees (image.sites ctx) direct (relocated ctx image m ctx.imageAddress) m' result ↔
      ctx.imageAddress ≠ linkedAddress ctx m ∨ LogTells (image.sites ctx) fixupData delta m m' := by
  have hbelow : ctx.imageAddress < 2 ^ 64 := by
    have hin := hw.inMemory
    have hheaders := hw.headersInImage
    have hsize := hw.headers
    omega
  have hexpected : ∀ s ∈ image.sites ctx, s.value direct =
      (s.value (relocated ctx image m ctx.imageAddress) + delta) % 256 ^ s.width := by
    intro s hs
    rw [hdirect s hs, hw.relocated_value hlog _ hs, hdelta]
    exact (adjusted_twice s virtImageBase hbelow (linkedAddress_lt ctx m)).symm
  have hslots : RuntimeAgrees (image.sites ctx) direct (relocated ctx image m ctx.imageAddress) m' result ↔
      ∀ x ∈ slots fixupData (image.sites ctx), delta % 256 ^ x.1.width = 0 ∨
        (x.2.value (relocated ctx image m ctx.imageAddress) = x.1.value m' ↔
          x.1.value m' = x.1.value (relocated ctx image m ctx.imageAddress)) := by
    constructor
    · intro h x hx
      have hvalue := h.value x.1 (slots_mem hx)
      rw [hresult x hx, hexpected x.1 (slots_mem hx)] at hvalue
      rw [← hw.slot_kept hb hx]
      exact (moved_iff delta m' x _).mp hvalue
    · intro h
      refine ⟨fun s hs => ?_, helse⟩
      obtain ⟨x, hx, rfl⟩ := exists_slot fixupData hs
      have htells := h x hx
      rw [← hw.slot_kept hb hx] at htells
      rw [hresult x hx, hexpected x.1 hs]
      exact (moved_iff delta m' x _).mpr htells
  rw [hslots]
  by_cases hlinked : ctx.imageAddress = linkedAddress ctx m
  · have hzero : adjustFor ctx m ctx.imageAddress = 0 := (adjustFor_eq_zero hbelow).mpr hlinked
    rw [relocated_of_zero image hzero]
    exact ⟨.inr, fun h => h.resolve_left (not_not_intro hlinked)⟩
  · have hadjust : adjustFor ctx m ctx.imageAddress ≠ 0 := mt (adjustFor_eq_zero hbelow).mp hlinked
    refine ⟨fun _ => .inl hlinked, fun _ x hx => .inr ?_⟩
    rw [hw.relocated_log hlog hadjust hp hx]
    exact eq_comm

end WellFormed

/-- The log is written and read at the same places, and tells what has changed unless nothing was written to it. -/
theorem runtime_agrees (hw : WellFormed ctx image m) (hbase : ctx.baseAddress = ctx.imageAddress)
    (hlog : ctx.fixupData = some fixupData) (hout : LogOutside ctx m fixupData) (hfuel : image.directorySize < fuel) :
    ∃ ctx' before, peCoffLoaderRelocateImage fuel ctx m = some (.success, ctx', before) ∧
      (ctx.imageAddress ≠ linkedAddress ctx m →
        ∀ x ∈ slots fixupData (image.sites ctx), x.2.value before = x.1.value before) ∧
      ∀ virtImageBase, ∃ ctxDirect direct,
        relocateImageFor fuel { ctx with fixupData := none } virtImageBase m = some (.success, ctxDirect, direct) ∧
        ∀ after, Between ctx image (fixupDataSize m ctx.ntHeader) fixupData before after → ∃ result,
          peCoffLoaderRelocateImageForRuntime fuel ctx.imageAddress virtImageBase fixupData after = some result ∧
          (∀ x ∈ slots fixupData (image.sites ctx),
            x.1.value result = moved (uint64 (virtImageBase + 2 ^ 64 - ctx.imageAddress)) after x) ∧
          (RuntimeAgrees (image.sites ctx) direct before after result ↔
            ctx.imageAddress ≠ linkedAddress ctx m ∨
              LogTells (image.sites ctx) fixupData (uint64 (virtImageBase + 2 ^ 64 - ctx.imageAddress)) m after) := by
  have houts : ∀ p ∈ ctx.fixupData, LogOutside ctx m p := by
    intro p hp
    rw [hlog] at hp
    rwa [← Option.mem_some_iff.mp hp]
  have hp : fixupData ∈ ctx.fixupData := hlog
  have hclear : WellFormed { ctx with imageError := .success } image m :=
    ⟨hw.pe, hw.relocations, hw.offset, hw.dos, hw.signature, hw.magic, hw.number, hw.directory, hw.directorySize,
      hw.bytes, hw.headers, hw.headersInImage, hw.behind, hw.notNull, hw.inImage, hw.imageSize, hw.inMemory, hw.pages,
      hw.supported, hw.sites, hw.outside, hw.apart⟩
  have hunlogged : WellFormed { ctx with fixupData := none } image m :=
    ⟨hw.pe, hw.relocations, hw.offset, hw.dos, hw.signature, hw.magic, hw.number, hw.directory, hw.directorySize,
      hw.bytes, hw.headers, hw.headersInImage, hw.behind, hw.notNull, hw.inImage, hw.imageSize, hw.inMemory, hw.pages,
      hw.supported, hw.sites, hw.outside, hw.apart⟩
  obtain ⟨ctx', hrun⟩ := hclear.relocateImageFor_eq houts ctx.imageAddress hfuel
  refine ⟨ctx', relocated ctx image m ctx.imageAddress, ?_, ?_, ?_⟩
  · unfold peCoffLoaderRelocateImage
    dsimp only
    rw [if_neg (by rw [hw.relocations]; exact Bool.false_ne_true)]
    have hsame : ({ ctx with imageError := .success } : ImageContext).baseAddress = ctx.imageAddress := hbase
    rw [hsame]
    exact hrun
  · intro hne x hx
    have hbelow : ctx.imageAddress < 2 ^ 64 := by
      have hin := hw.inMemory
      have hheaders := hw.headersInImage
      have hsize := hw.headers
      omega
    exact hw.relocated_log houts (mt (adjustFor_eq_zero hbelow).mp hne) hp hx
  · intro virtImageBase
    obtain ⟨ctxDirect, hdirect⟩ := hunlogged.relocateImageFor_eq nofun virtImageBase hfuel
    refine ⟨ctxDirect, _, hdirect, fun after hb => ?_⟩
    have hk : KeepsHeaders ctx image m after := fun i h₁ h₂ hi =>
      (hb.headers i h₁ h₂).trans (hw.relocated_headers houts _ i h₁ h₂ hi)
    have hat : At after (ctx.imageAddress + image.directory) (directoryBytes image.blocks) :=
      (at_congr _ _ _ _ hb.directory).mpr (hw.relocated_bytes houts _)
    refine ⟨_, hw.runtime_eq hk hat virtImageBase fixupData hfuel, ?_, ?_⟩
    · exact fun x hx => reapplySites_value (by rw [← hlog]; exact hw.separate houts) hx
    · refine hw.agrees_iff houts hp hb rfl (fun s hs => hunlogged.relocated_value nofun virtImageBase hs) ?_ ?_
      · exact fun x hx => reapplySites_value (by rw [← hlog]; exact hw.separate houts) hx
      · exact fun i hi => reapplySites_outside hi

/-! ## An image with one HIGHLOW relocation -/

def sampleContext : ImageContext where
  imageAddress := 0x1000
  destinationAddress := 0
  imageSize := 256
  peCoffHeaderOffset := 0
  entryPoint := 0x10b8
  isTeImage := false
  relocationsStripped := false
  fixupData := some 0x2000
  imageError := .success

def sampleImage : Image := ⟨184, 192, [⟨0, [0x30d0]⟩]⟩

theorem sampleSite_width : 4 = 4 ∨ 4 = 8 := .inl rfl

def sampleSite : Site := ⟨0x10d0, 4, sampleSite_width⟩

/-- The image without a DOS header, linked for an address. -/
def sampleMemory (linked : Nat) : Memory :=
  let fields := [(0, 4, imageNtSignature), (24, 2, imageNtOptionalHdr32Magic), (52, 4, linked), (116, 4, 6), (160, 4, 192),
    (164, 4, 10), (196, 4, 10), (200, 2, 0x30d0), (208, 4, 0x10b8)]
  fields.foldl (fun m x => write m (0x1000 + x.1) (toLE x.2.1 x.2.2)) fun _ => 0

theorem sampleImage_sites : sampleImage.sites sampleContext = [sampleSite] := rfl

theorem sample_wellFormed (linked : Nat) (h : linked = 0 ∨ linked = 0x1000) :
    WellFormed sampleContext sampleImage (sampleMemory linked) where
  pe := rfl
  relocations := rfl
  offset := by obtain rfl | rfl := h <;> decide +kernel
  dos := by obtain rfl | rfl := h <;> decide +kernel
  signature := by obtain rfl | rfl := h <;> decide +kernel
  magic := by obtain rfl | rfl := h <;> decide +kernel
  number := by obtain rfl | rfl := h <;> decide +kernel
  directory := by obtain rfl | rfl := h <;> decide +kernel
  directorySize := by obtain rfl | rfl := h <;> decide +kernel
  bytes := by unfold At; obtain rfl | rfl := h <;> decide +kernel
  headers := by decide
  headersInImage := by decide
  behind _ := by decide
  notNull := by decide
  inImage := by decide
  imageSize := by decide
  inMemory := by decide
  pages := by decide
  supported := by decide
  sites := by rw [sampleImage_sites]; decide
  outside := by rw [sampleImage_sites]; decide
  apart := List.pairwise_singleton _ _

theorem sample_logOutside (linked : Nat) : LogOutside sampleContext (sampleMemory linked) 0x2000 := .inr (by decide)

theorem between_refl (ctx : ImageContext) (image : Image) (size fixupData : Nat) (m : Memory) :
    Between ctx image size fixupData m m := ⟨fun _ _ _ => rfl, fun _ _ _ => rfl, fun _ _ _ => rfl⟩

/-- Linked for 0 and loaded at 0x1000, the image is moved to 0x80001000. -/
theorem runtime_agrees_sample : ∃ ctx' before ctxDirect direct result,
    peCoffLoaderRelocateImage 11 sampleContext (sampleMemory 0) = some (.success, ctx', before) ∧
      relocateImageFor 11 { sampleContext with fixupData := none } 0x80001000 (sampleMemory 0) =
        some (.success, ctxDirect, direct) ∧
      peCoffLoaderRelocateImageForRuntime 11 0x1000 0x80001000 0x2000 before = some result ∧
      RuntimeAgrees [sampleSite] direct before before result := by
  have hw := sample_wellFormed 0 (.inl rfl)
  obtain ⟨ctx', before, hrun, -, hall⟩ :=
    @runtime_agrees sampleContext sampleImage _ 0x2000 11 hw rfl rfl (sample_logOutside 0) (by decide)
  obtain ⟨ctxDirect, direct, hdirect, hruntime⟩ := hall 0x80001000
  obtain ⟨result, hresult, -, hiff⟩ := hruntime before (between_refl _ _ _ _ _)
  exact ⟨ctx', before, ctxDirect, direct, result, hrun, hdirect, hresult, hiff.mpr (.inl (by decide +kernel))⟩

/-- Loaded where it is linked for, the image stays behind: nothing was written to its log. -/
theorem unwritten_log_misleads : ∃ ctx' before ctxDirect direct result,
    WellFormed sampleContext sampleImage (sampleMemory 0x1000) ∧ LogOutside sampleContext (sampleMemory 0x1000) 0x2000 ∧
      peCoffLoaderRelocateImage 11 sampleContext (sampleMemory 0x1000) = some (.success, ctx', before) ∧
      relocateImageFor 11 { sampleContext with fixupData := none } 0x80001000 (sampleMemory 0x1000) =
        some (.success, ctxDirect, direct) ∧
      peCoffLoaderRelocateImageForRuntime 11 0x1000 0x80001000 0x2000 before = some result ∧
      sampleSite.value direct = 0x800010b8 ∧ sampleSite.value result = 0x10b8 ∧
      ¬RuntimeAgrees (sampleImage.sites sampleContext) direct before before result := by
  have hrun : ((peCoffLoaderRelocateImage 11 sampleContext (sampleMemory 0x1000)).map fun r =>
      (r.1, (peCoffLoaderRelocateImageForRuntime 11 0x1000 0x80001000 0x2000 r.2.2).map sampleSite.value)) =
        some (.success, some 0x10b8) := by decide +kernel
  have hdirect : ((relocateImageFor 11 { sampleContext with fixupData := none } 0x80001000 (sampleMemory 0x1000)).map
      fun r => (r.1, sampleSite.value r.2.2)) = some (.success, 0x800010b8) := by decide +kernel
  obtain ⟨⟨status, ctx', before⟩, hbefore, hobserved⟩ := Option.map_eq_some_iff.mp hrun
  obtain ⟨⟨statusDirect, ctxDirect, direct⟩, hafter, hvalue⟩ := Option.map_eq_some_iff.mp hdirect
  obtain ⟨rfl, hresult⟩ := Prod.mk.inj hobserved
  obtain ⟨rfl, hdirectValue⟩ := Prod.mk.inj hvalue
  obtain ⟨result, hruntime, hresultValue⟩ := Option.map_eq_some_iff.mp hresult
  refine ⟨ctx', before, ctxDirect, direct, result, sample_wellFormed _ (.inr rfl), sample_logOutside _, hbefore, hafter,
    hruntime, hdirectValue, hresultValue, fun h => ?_⟩
  have heq := h.value sampleSite (by rw [sampleImage_sites]; exact List.mem_singleton_self _)
  rw [if_pos rfl, hresultValue, hdirectValue] at heq
  exact absurd heq (by decide)

end Udk.PeCoff
