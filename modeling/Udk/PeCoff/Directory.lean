import Udk.PeCoff.Sites

/-! # The base relocation directory

A directory that encodes a list of blocks: both walks over it come to the sites that the blocks list.
-/

namespace Udk.PeCoff

open Bytes

/-- An entry that is ABSOLUTE, HIGHLOW or DIR64. -/
def Supported (reloc : Nat) : Prop := reloc < 2 ^ 16 ∧ (reloc / 2 ^ 12 = 0 ∨ reloc / 2 ^ 12 = 3 ∨ reloc / 2 ^ 12 = 10)

instance (reloc : Nat) : Decidable (Supported reloc) := inferInstanceAs (Decidable (_ ∧ _))

/-- `EFI_IMAGE_BASE_RELOCATION` and the entries behind it. -/
structure Block where
  virtualAddress : Nat
  entries : List Nat

def Block.size (b : Block) : Nat := 8 + 2 * b.entries.length

def entryBytes (entries : List Nat) : List UInt8 := entries.flatMap (toLE 2)

def Block.bytes (b : Block) : List UInt8 := toLE 4 b.virtualAddress ++ (toLE 4 b.size ++ entryBytes b.entries)

def directoryBytes (blocks : List Block) : List UInt8 := blocks.flatMap Block.bytes

/-- The location of an entry, if it is not ABSOLUTE. -/
def siteOf (fixupBase reloc : Nat) : Option Site :=
  if reloc / 2 ^ 12 = 3 then some ⟨fixupBase + reloc % 2 ^ 12, 4, .inl rfl⟩
  else if reloc / 2 ^ 12 = 10 then some ⟨fixupBase + reloc % 2 ^ 12, 8, .inr rfl⟩
  else none

def Block.sites (imageAddress : Nat) (b : Block) : List Site :=
  b.entries.filterMap (siteOf (imageAddress + b.virtualAddress))

def directorySites (imageAddress : Nat) (blocks : List Block) : List Site := blocks.flatMap (Block.sites imageAddress)

variable {adjust delta fixupBase relocEnd reloc fuel imageAddress a : Nat} {st : Fixing} {rt : Reapplying} {b : Block}
  {blocks : List Block} {sites rest : List Site} {entries : List Nat} {log : Option Nat}

/-! ## Lengths -/

@[simp] theorem entryBytes_length (entries : List Nat) : (entryBytes entries).length = 2 * entries.length := by
  induction entries with
  | nil => rfl
  | cons e rest ih =>
    have hcons : entryBytes (e :: rest) = toLE 2 e ++ entryBytes rest := rfl
    rw [hcons, List.length_append, toLE_length, ih, List.length_cons]
    omega

@[simp] theorem Block.bytes_length (b : Block) : b.bytes.length = b.size := by
  simp only [Block.bytes, Block.size, List.length_append, toLE_length, entryBytes_length]
  omega

theorem directoryBytes_cons (b : Block) (blocks : List Block) :
    directoryBytes (b :: blocks) = b.bytes ++ directoryBytes blocks := rfl

theorem directorySites_cons (imageAddress : Nat) (b : Block) (blocks : List Block) :
    directorySites imageAddress (b :: blocks) = b.sites imageAddress ++ directorySites imageAddress blocks := rfl

theorem filterMap_sites_length (fixupBase : Nat) (entries : List Nat) :
    (entries.filterMap (siteOf fixupBase)).length ≤ entries.length := List.length_filterMap_le _ _

/-- Twice as many bytes as there are sites, and the header of a block. -/
theorem directorySites_length (imageAddress : Nat) (blocks : List Block) :
    2 * (directorySites imageAddress blocks).length + 8 * blocks.length ≤ (directoryBytes blocks).length := by
  induction blocks with
  | nil => exact Nat.le_refl 0
  | cons b blocks ih =>
    have hsites : (b.sites imageAddress).length ≤ b.entries.length := filterMap_sites_length _ _
    rw [directorySites_cons, directoryBytes_cons, List.length_append, List.length_append, Block.bytes_length, Block.size,
      List.length_cons]
    omega

/-! ## What a walk leaves alone -/

/-- The bytes of the directory are apart from the sites and their log. -/
def Spared (a n : Nat) (log : Option Nat) (sites : List Site) : Prop :=
  ∀ i, a ≤ i → i < a + n → (∀ s ∈ sites, ¬s.Has i) ∧ ¬LogHas log sites i

theorem logEnd_append (p : Nat) (sites rest : List Site) : logEnd p (sites ++ rest) = logEnd (logEnd p sites) rest := by
  induction sites generalizing p with
  | nil => rfl
  | cons s sites ih => exact ih _

theorem relocateSites_append (adjust : Nat) (sites rest : List Site) (st : Fixing) :
    relocateSites adjust (sites ++ rest) st = relocateSites adjust rest (relocateSites adjust sites st) :=
  List.foldl_append

theorem reapplySites_append (delta : Nat) (sites rest : List Site) (rt : Reapplying) :
    reapplySites delta (sites ++ rest) rt = reapplySites delta rest (reapplySites delta sites rt) := List.foldl_append

theorem relocateSites_fixupData (adjust : Nat) (sites : List Site) (st : Fixing) :
    (relocateSites adjust sites st).fixupData = st.fixupData.map (logEnd · sites) := by
  induction sites generalizing st with
  | nil =>
    cases h : st.fixupData <;> exact h
  | cons s rest ih =>
    rw [relocateSites_cons, ih, relocateSite_fixupData, Option.map_map]
    rfl

theorem Spared.left (h : Spared a n log (sites ++ rest)) : Spared a n log sites := by
  intro i h₁ h₂
  obtain ⟨hsites, hlog⟩ := h i h₁ h₂
  refine ⟨fun s hs => hsites s (List.mem_append_left _ hs), ?_⟩
  rintro ⟨p, hp, hle, hlt⟩
  refine hlog ⟨p, hp, hle, ?_⟩
  rw [logEnd_append]
  exact Nat.lt_of_lt_of_le hlt (le_logEnd _ _)

theorem Spared.right (h : Spared a n log (sites ++ rest)) : Spared a n (log.map (logEnd · sites)) rest := by
  intro i h₁ h₂
  obtain ⟨hsites, hlog⟩ := h i h₁ h₂
  refine ⟨fun s hs => hsites s (List.mem_append_right _ hs), ?_⟩
  rintro ⟨q, hq, hle, hlt⟩
  obtain ⟨p, hp, rfl⟩ := Option.map_eq_some_iff.mp hq
  refine hlog ⟨p, hp, Nat.le_trans (le_logEnd p sites) hle, ?_⟩
  rwa [logEnd_append]

theorem Spared.part {a n b k : Nat} (h : Spared a n log sites) (hab : a ≤ b) (hkn : b + k ≤ a + n) : Spared b k log sites :=
  fun i h₁ h₂ => h i (by omega) (by omega)

theorem Spared.relocate {bs : List UInt8} (h : Spared a bs.length st.fixupData sites) (hat : At st.memory a bs) :
    At (relocateSites adjust sites st).memory a bs :=
  (at_congr _ _ _ _ fun i h₁ h₂ => relocateSites_outside (h i h₁ h₂).1 (h i h₁ h₂).2).mpr hat

theorem Spared.reapply {bs : List UInt8} (h : Spared a bs.length log sites) (hat : At rt.memory a bs) :
    At (reapplySites delta sites rt).memory a bs :=
  (at_congr _ _ _ _ fun i h₁ h₂ => reapplySites_outside (h i h₁ h₂).1).mpr hat

/-! ## One entry -/

theorem siteOf_cases (hs : Supported reloc) (fixupBase : Nat) :
    (reloc / 2 ^ 12 = 0 ∧ siteOf fixupBase reloc = none) ∨
      (reloc / 2 ^ 12 = 3 ∧ siteOf fixupBase reloc = some ⟨fixupBase + reloc % 2 ^ 12, 4, .inl rfl⟩) ∨
      (reloc / 2 ^ 12 = 10 ∧ siteOf fixupBase reloc = some ⟨fixupBase + reloc % 2 ^ 12, 8, .inr rfl⟩) := by
  unfold siteOf
  obtain h | h | h := hs.2
  · refine .inl ⟨h, ?_⟩
    rw [h, if_neg (by decide), if_neg (by decide)]
  · refine .inr (.inl ⟨h, ?_⟩)
    rw [if_pos h]
  · refine .inr (.inr ⟨h, ?_⟩)
    rw [if_neg (by rw [h]; decide), if_pos h]

theorem relocateRecord_eq (hs : Supported reloc) (adjust fixupBase : Nat) (st : Fixing) :
    relocateRecord adjust fixupBase reloc st = some (relocateSites adjust (siteOf fixupBase reloc).toList st) := by
  obtain ⟨h, hsite⟩ | ⟨h, hsite⟩ | ⟨h, hsite⟩ := siteOf_cases hs fixupBase
  all_goals
    rw [hsite]
    unfold relocateRecord
    rw [h]
    rfl

theorem reapplyRecord_eq (hs : Supported reloc) (delta fixupBase : Nat) (rt : Reapplying) :
    reapplyRecord delta fixupBase reloc rt = .done (reapplySites delta (siteOf fixupBase reloc).toList rt) := by
  obtain ⟨h, hsite⟩ | ⟨h, hsite⟩ | ⟨h, hsite⟩ := siteOf_cases hs fixupBase
  all_goals
    rw [hsite]
    unfold reapplyRecord
    rw [h]
    rfl

theorem filterMap_cons_toList (fixupBase reloc : Nat) (entries : List Nat) :
    (reloc :: entries).filterMap (siteOf fixupBase) =
      (siteOf fixupBase reloc).toList ++ entries.filterMap (siteOf fixupBase) := by
  cases h : siteOf fixupBase reloc <;> simp [h]

/-! ## The walks -/

/-- The first entry, and the others behind it. -/
theorem entryBytes_at {m : Memory} {e : Nat} (he : Supported e) (h : At m a (entryBytes (e :: entries))) :
    readLE m a 2 = e ∧ At m (a + 2) (entryBytes entries) := by
  obtain ⟨hfirst, hrest⟩ := (at_append m a _ _).mp h
  refine ⟨at_readLE m a 2 e hfirst he.1, ?_⟩
  rwa [toLE_length] at hrest

theorem relocateRecords_eq (adjust fixupBase : Nat) (hs : ∀ e ∈ entries, Supported e)
    (hat : At st.memory a (entryBytes entries))
    (hspared : Spared a (2 * entries.length) st.fixupData (entries.filterMap (siteOf fixupBase)))
    (hend : relocEnd = a + 2 * entries.length) (hfuel : entries.length < fuel) :
    relocateRecords adjust fixupBase relocEnd fuel a st =
      some (.ok (relocateSites adjust (entries.filterMap (siteOf fixupBase)) st)) := by
  induction entries generalizing a st fuel with
  | nil =>
    obtain ⟨fuel, rfl⟩ : ∃ k, fuel = k + 1 := ⟨fuel - 1, by simp at hfuel; omega⟩
    rw [relocateRecords, if_neg (by simp at hend; omega)]
    rfl
  | cons e entries ih =>
    rw [List.length_cons] at hend hfuel hspared
    obtain ⟨fuel, rfl⟩ : ∃ k, fuel = k + 1 := ⟨fuel - 1, by omega⟩
    have he := hs e List.mem_cons_self
    obtain ⟨hread, hrest⟩ := entryBytes_at he hat
    rw [filterMap_cons_toList] at hspared ⊢
    rw [relocateRecords, if_pos (by omega), hread, relocateRecord_eq he, relocateSites_append]
    have hleft : Spared (a + 2) (entryBytes entries).length st.fixupData (siteOf fixupBase e).toList := by
      rw [entryBytes_length]
      exact hspared.left.part (by omega) (by omega)
    refine ih (fun e' he' => hs e' (List.mem_cons_of_mem e he')) (hleft.relocate hrest) ?_ (by omega) (by omega)
    rw [relocateSites_fixupData]
    exact hspared.right.part (by omega) (by omega)

theorem reapplyRecords_eq (delta fixupBase : Nat) (hs : ∀ e ∈ entries, Supported e)
    (hat : At rt.memory a (entryBytes entries))
    (hspared : Spared a (2 * entries.length) none (entries.filterMap (siteOf fixupBase)))
    (hend : relocEnd = a + 2 * entries.length) (hfuel : entries.length < fuel) :
    reapplyRecords delta fixupBase relocEnd fuel a rt =
      some (.ok (reapplySites delta (entries.filterMap (siteOf fixupBase)) rt)) := by
  induction entries generalizing a rt fuel with
  | nil =>
    obtain ⟨fuel, rfl⟩ : ∃ k, fuel = k + 1 := ⟨fuel - 1, by simp at hfuel; omega⟩
    rw [reapplyRecords, if_neg (by simp at hend; omega)]
    rfl
  | cons e entries ih =>
    rw [List.length_cons] at hend hfuel hspared
    obtain ⟨fuel, rfl⟩ : ∃ k, fuel = k + 1 := ⟨fuel - 1, by omega⟩
    have he := hs e List.mem_cons_self
    obtain ⟨hread, hrest⟩ := entryBytes_at he hat
    rw [filterMap_cons_toList] at hspared ⊢
    rw [reapplyRecords, if_pos (by omega), hread, reapplyRecord_eq he, reapplySites_append]
    have hleft : Spared (a + 2) (entryBytes entries).length none (siteOf fixupBase e).toList := by
      rw [entryBytes_length]
      exact hspared.left.part (by omega) (by omega)
    refine ih (fun e' he' => hs e' (List.mem_cons_of_mem e he')) (hleft.reapply hrest) ?_ (by omega) (by omega)
    exact hspared.right.part (by omega) (by omega)

/-- What a block says of itself fits its fields. -/
structure Block.Fits (b : Block) : Prop where
  virtualAddress : b.virtualAddress < 2 ^ 32
  size : b.size < 2 ^ 32
  supported : ∀ e ∈ b.entries, Supported e

theorem Block.Fits.read {m : Memory} (hb : b.Fits) (h : At m a (directoryBytes (b :: blocks))) :
    readLE m a 4 = b.virtualAddress ∧ readLE m (a + 4) 4 = b.size ∧ At m (a + 8) (entryBytes b.entries) ∧
      At m (a + b.size) (directoryBytes blocks) := by
  rw [directoryBytes_cons] at h
  obtain ⟨hblock, hrest⟩ := (at_append m a _ _).mp h
  obtain ⟨haddress, hbehind⟩ := (at_append m a _ _).mp hblock
  rw [toLE_length] at hbehind
  obtain ⟨hsize, hentries⟩ := (at_append m (a + 4) _ _).mp hbehind
  rw [toLE_length] at hentries
  rw [Block.bytes_length] at hrest
  exact ⟨at_readLE m a 4 _ haddress hb.virtualAddress, at_readLE m (a + 4) 4 _ hsize hb.size, hentries, hrest⟩

/-- A walk goes on exactly where blocks are left. The end may be the last byte or the one behind it. -/
structure EndsAt (a relocBaseEnd : Nat) (blocks : List Block) : Prop where
  lower : a + (directoryBytes blocks).length ≤ relocBaseEnd + 1
  upper : relocBaseEnd ≤ a + (directoryBytes blocks).length

theorem EndsAt.cons {relocBaseEnd : Nat} (h : EndsAt a relocBaseEnd (b :: blocks)) :
    a < relocBaseEnd ∧ EndsAt (a + b.size) relocBaseEnd blocks := by
  obtain ⟨hlow, hup⟩ := h
  rw [directoryBytes_cons, List.length_append, Block.bytes_length] at hlow hup
  have hsize : 8 ≤ b.size := Nat.le_add_right _ _
  exact ⟨by omega, by omega, by omega⟩

theorem relocateBlocks_eq {ctx : ImageContext} {relocBaseEnd : Nat} (strippedSize adjust : Nat)
    (hte : ctx.isTeImage = false) (hfits : ∀ b ∈ blocks, b.Fits) (hin : ∀ b ∈ blocks, b.virtualAddress < ctx.imageSize)
    (hat : At st.memory a (directoryBytes blocks))
    (hspared : Spared a (directoryBytes blocks).length st.fixupData (directorySites ctx.imageAddress blocks))
    (hend : EndsAt a relocBaseEnd blocks)
    (hplace : blocks ≠ [] → ctx.imageAddress ≤ a ∧
      a + (directoryBytes blocks).length ≤ ctx.imageAddress + ctx.imageSize)
    (hfuel : (directoryBytes blocks).length < fuel) :
    relocateBlocks ctx strippedSize adjust relocBaseEnd fuel a st =
      some (.relocated (relocateSites adjust (directorySites ctx.imageAddress blocks) st)) := by
  induction blocks generalizing a st fuel with
  | nil =>
    obtain ⟨fuel, rfl⟩ : ∃ k, fuel = k + 1 := ⟨fuel - 1, by omega⟩
    have hup : relocBaseEnd ≤ a := hend.upper
    rw [relocateBlocks, if_neg (by omega)]
    rfl
  | cons b blocks ih =>
    obtain ⟨fuel, rfl⟩ : ∃ k, fuel = k + 1 := ⟨fuel - 1, by omega⟩
    have hb := hfits b List.mem_cons_self
    obtain ⟨haddress, hsize, hentries, hrest⟩ := hb.read hat
    obtain ⟨hlt, hend'⟩ := hend.cons
    have hblock : b.size = 8 + 2 * b.entries.length := rfl
    obtain ⟨hfrom, hupto⟩ := hplace (List.cons_ne_nil b blocks)
    rw [directoryBytes_cons, List.length_append, Block.bytes_length] at hspared hupto hfuel
    rw [directorySites_cons] at hspared ⊢
    have hbase : fixupBaseOf ctx strippedSize b.virtualAddress = some (ctx.imageAddress + b.virtualAddress) := by
      have hnot := hin b List.mem_cons_self
      rw [fixupBaseOf, hte, if_neg Bool.false_ne_true, if_neg (by omega)]
    have hrecords : relocateRecords adjust (ctx.imageAddress + b.virtualAddress) (a + b.size) fuel (a + 8) st =
        some (.ok (relocateSites adjust (b.sites ctx.imageAddress) st)) :=
      relocateRecords_eq adjust _ hb.supported hentries (hspared.left.part (by omega) (by omega)) (by omega) (by omega)
    rw [relocateBlocks, if_pos hlt]
    dsimp only
    rw [hsize, haddress, if_neg (by omega), hbase]
    dsimp only
    rw [hrecords, relocateSites_append]
    dsimp only
    refine ih (fun b' hb' => hfits b' (List.mem_cons_of_mem b hb')) (fun b' hb' => hin b' (List.mem_cons_of_mem b hb'))
      ((hspared.left.part (by omega) (by omega)).relocate hrest) ?_ hend' (fun _ => ⟨by omega, by omega⟩) (by omega)
    rw [relocateSites_fixupData]
    exact hspared.right.part (by omega) (by omega)

theorem reapplyBlocks_eq {relocBaseEnd : Nat} (imageAddress delta : Nat) (hfits : ∀ b ∈ blocks, b.Fits)
    (hat : At rt.memory a (directoryBytes blocks))
    (hspared : Spared a (directoryBytes blocks).length none (directorySites imageAddress blocks))
    (hend : EndsAt a relocBaseEnd blocks) (hfuel : (directoryBytes blocks).length < fuel) :
    reapplyBlocks imageAddress delta relocBaseEnd fuel a rt =
      some (reapplySites delta (directorySites imageAddress blocks) rt).memory := by
  induction blocks generalizing a rt fuel with
  | nil =>
    obtain ⟨fuel, rfl⟩ : ∃ k, fuel = k + 1 := ⟨fuel - 1, by omega⟩
    have hup : relocBaseEnd ≤ a := hend.upper
    rw [reapplyBlocks, if_neg (by omega)]
    rfl
  | cons b blocks ih =>
    obtain ⟨fuel, rfl⟩ : ∃ k, fuel = k + 1 := ⟨fuel - 1, by omega⟩
    have hb := hfits b List.mem_cons_self
    obtain ⟨haddress, hsize, hentries, hrest⟩ := hb.read hat
    obtain ⟨hlt, hend'⟩ := hend.cons
    have hblock : b.size = 8 + 2 * b.entries.length := rfl
    rw [directoryBytes_cons, List.length_append, Block.bytes_length] at hspared hfuel
    rw [directorySites_cons] at hspared ⊢
    have hrecords : reapplyRecords delta (imageAddress + b.virtualAddress) (a + b.size) fuel (a + 8) rt =
        some (.ok (reapplySites delta (b.sites imageAddress) rt)) :=
      reapplyRecords_eq delta _ hb.supported hentries (hspared.left.part (by omega) (by omega)) (by omega) (by omega)
    rw [reapplyBlocks, if_pos hlt]
    dsimp only
    rw [hsize, haddress, hrecords, reapplySites_append]
    dsimp only
    refine ih (fun b' hb' => hfits b' (List.mem_cons_of_mem b hb'))
      ((hspared.left.part (by omega) (by omega)).reapply hrest) ?_ hend' (by omega)
    exact hspared.right.part (by omega) (by omega)

end Udk.PeCoff
