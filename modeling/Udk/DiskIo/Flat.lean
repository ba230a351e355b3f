import Udk.DiskIo.Transfer

/-! # The disk as a flat byte array -/

namespace Udk.DiskIo

open Bytes

section
variable {w : World} {r : Request} {preData : Nat}

/-! ## `BlockIo` on valid calls -/

theorem write_read (m m' : Memory) (a b n i : Nat) :
    write m b (read m' a n) i = if b ≤ i ∧ i < b + n then m' (a + (i - b)) else m i := by
  split
  · rename_i h
    have hlen : i - b < (read m' a n).length := by simp only [read_length]; omega
    have hat := at_getElem _ _ _ (write_at m b (read m' a n)) (i - b) hlen
    rw [read_getElem, show b + (i - b) = i by omega] at hat
    exact hat
  · exact write_outside _ _ _ _ (by simp only [read_length]; omega)

def InPool (w : World) (preData i : Nat) : Prop := preData ≤ i ∧ i < preData + poolSize w.media

/-- The buffer of the request or the bounce buffer. -/
def Own (w : World) (r : Request) (preData : Nat) (t : Nat × Nat) : Prop :=
  Inside r.buffer r.bufferSize t ∨ Inside preData (poolSize w.media) t

theorem checkBlocks_whole {media : Media} {mediaId : UInt32} {lba a n : Nat}
    (h : checkBlocks media mediaId lba n a = .success) : n % media.blockSize = 0 := by
  unfold checkBlocks at h
  split at h
  · cases h
  · split at h
    · cases h
    · rename_i hwhole
      exact not_not.mp hwhole

theorem Safe.call {s s' : State} {a n : Nat} (hown : Own w r preData (a, n)) (ha : Aligned w.media a)
    (ht : s'.touched = s.touched ∨ s'.touched = (a, n) :: s.touched) (hp : s'.passed = a :: s.passed) :
    Safe w r preData s s' := by
  constructor
  · intro t h
    rcases ht with ht | ht
    · exact .inl (ht ▸ h)
    · rw [ht, List.mem_cons] at h
      rcases h with rfl | h
      · exact .inr hown
      · exact .inl h
  · intro p h
    rw [hp, List.mem_cons] at h
    rcases h with rfl | h
    · exact .inr ha
    · exact .inl h

/-- What `ReadBlocks` does. -/
structure BlocksRead (w : World) (r : Request) (preData lba n a : Nat) (s : State) (result : EfiStatus × State) :
    Prop where
  safe : Safe w r preData s result.2
  disk : result.2.disk = s.disk
  success : result.1 = .success → n % w.media.blockSize = 0 ∧
    result.2.memory = write s.memory a (read s.disk (lba * w.media.blockSize) n)
  failure : result.1 ≠ .success → ∀ i, i < a ∨ a + n ≤ i → result.2.memory i = s.memory i

theorem readBlocks_spec {lba n a : Nat} (s : State) (hown : Own w r preData (a, n)) (ha : Aligned w.media a) :
    BlocksRead w r preData lba n a s (readBlocks w r.mediaId lba n a s) := by
  unfold readBlocks
  simp only
  split
  · rename_i hcheck
    exact ⟨.call hown ha (.inl rfl) rfl, rfl, fun h => absurd h hcheck, fun _ _ _ => rfl⟩
  · rename_i hcheck
    have hwhole := checkBlocks_whole (not_not.mp hcheck)
    split
    · exact ⟨.call hown ha (.inr rfl) rfl, rfl, fun _ => ⟨hwhole, rfl⟩, fun h => absurd rfl h⟩
    · rename_i failure _
      refine ⟨.call hown ha (.inr rfl) rfl, rfl, fun h => absurd h failure.failed, fun _ i hi => ?_⟩
      exact if_neg (by omega)

/-- What `WriteBlocks` does. -/
structure BlocksWritten (w : World) (r : Request) (preData lba n a : Nat) (s : State) (result : EfiStatus × State) :
    Prop where
  safe : Safe w r preData s result.2
  memory : result.2.memory = s.memory
  success : result.1 = .success → n % w.media.blockSize = 0 ∧
    result.2.disk = write s.disk (lba * w.media.blockSize) (read s.memory a n)
  failure : result.1 ≠ .success → ∀ i, result.2.disk i = s.disk i ∨
    lba * w.media.blockSize ≤ i ∧ i < lba * w.media.blockSize + n ∧
      result.2.disk i = s.memory (a + (i - lba * w.media.blockSize))

theorem writeBlocks_spec {lba n a : Nat} (s : State) (hown : Own w r preData (a, n)) (ha : Aligned w.media a) :
    BlocksWritten w r preData lba n a s (writeBlocks w r.mediaId lba n a s) := by
  unfold writeBlocks
  simp only
  split
  · rename_i hcheck
    exact ⟨.call hown ha (.inl rfl) rfl, rfl, fun h => absurd h hcheck, fun _ _ => .inl rfl⟩
  · rename_i hcheck
    have hwhole := checkBlocks_whole (not_not.mp hcheck)
    split
    · exact ⟨.call hown ha (.inr rfl) rfl, rfl, fun _ => ⟨hwhole, rfl⟩, fun h => absurd rfl h⟩
    · rename_i failure _
      refine ⟨.call hown ha (.inr rfl) rfl, rfl, fun h => absurd h failure.failed, fun _ i => ?_⟩
      simp only [transfer]
      split
      · rename_i hi
        exact .inr ⟨hi.1, hi.2.1, rfl⟩
      · exact .inl rfl

/-! ## Reading -/

structure ReadMoved (w : World) (r : Request) (preData : Nat) (s s' : State) (o a n : Nat) : Prop where
  safe : Safe w r preData s s'
  disk : s'.disk = s.disk
  memory : ∀ i, ¬InPool w preData i →
    s'.memory i = if a ≤ i ∧ i < a + n then s.disk (o + (i - a)) else s.memory i

structure ReadStopped (w : World) (r : Request) (preData : Nat) (s s' : State) (o a n : Nat) : Prop where
  safe : Safe w r preData s s'
  disk : s'.disk = s.disk
  memory : ∀ i, ¬InPool w preData i → i < a ∨ a + n ≤ i → s'.memory i = s.memory i

theorem Safe.copyMem {s s' : State} {destination source length : Nat} (h : Safe w r preData s s')
    (hd : Own w r preData (destination, length)) (hs : Own w r preData (source, length)) :
    Safe w r preData s (copyMem destination source length s') := by
  refine ⟨fun t ht => ?_, h.passed⟩
  simp only [DiskIo.copyMem, List.mem_cons] at ht
  rcases ht with rfl | rfl | ht
  · exact .inr hd
  · exact .inr hs
  · exact h.touched t ht

theorem ReadMoved.append {s s₁ s₂ : State} {o a n k : Nat} (h₁ : ReadMoved w r preData s s₁ o a n)
    (h₂ : ReadMoved w r preData s₁ s₂ (o + n) (a + n) k) : ReadMoved w r preData s s₂ o a (n + k) := by
  refine ⟨h₁.safe.trans h₂.safe, h₂.disk.trans h₁.disk, fun i hi => ?_⟩
  rw [h₂.memory i hi, h₁.memory i hi, h₁.disk]
  by_cases hn : i < a + n
  · rw [if_neg (by omega)]
    exact if_congr (by omega) rfl rfl
  · by_cases hk : a + n ≤ i ∧ i < a + n + k
    · rw [if_pos hk, if_pos (by omega), show o + n + (i - (a + n)) = o + (i - a) by omega]
    · rw [if_neg hk, if_neg (by omega), if_neg (by omega)]

theorem ReadMoved.stopped {s s₁ s₂ : State} {o a n k : Nat} (h₁ : ReadMoved w r preData s s₁ o a n)
    (h₂ : ReadStopped w r preData s₁ s₂ (o + n) (a + n) k) : ReadStopped w r preData s s₂ o a (n + k) := by
  refine ⟨h₁.safe.trans h₂.safe, h₂.disk.trans h₁.disk, fun i hi hout => ?_⟩
  rw [h₂.memory i hi (by omega), h₁.memory i hi, if_neg (by omega)]

/-- Blocks that are read into the bounce buffer, and a part of them that is copied from there. -/
theorem bouncedRead_spec {data lba size a n : Nat} (underRun : Nat) (s : State) (hdata : preData ≤ data)
    (hfit : data + size ≤ preData + poolSize w.media) (halign : Aligned w.media data) (hn : underRun + n ≤ size)
    (hin : Inside r.buffer r.bufferSize (a, n)) :
    Ended (ReadMoved w r preData) (ReadStopped w r preData) s (lba * w.media.blockSize + underRun) a n
      (match readBlocks w r.mediaId lba size data s with
      | (.success, s) => (.success, copyMem a (data + underRun) n s)
      | failed => failed) ∧
    ((match readBlocks w r.mediaId lba size data s with
      | (.success, s) => (EfiStatus.success, copyMem a (data + underRun) n s)
      | failed => failed).1 = .success → size % w.media.blockSize = 0) := by
  have hread : BlocksRead w r preData lba size data s _ := readBlocks_spec s (.inr ⟨hdata, hfit⟩) halign
  have hpool : ∀ i, ¬InPool w preData i → i < data ∨ data + size ≤ i := by
    intro i hi
    unfold InPool at hi
    omega
  split
  · rename_i s₁ hs
    rw [hs] at hread
    obtain ⟨hwhole, hmem⟩ := hread.success rfl
    refine ⟨⟨fun _ => ⟨?_, hread.disk, fun i hi => ?_⟩, fun h => absurd rfl h⟩, fun _ => hwhole⟩
    · refine hread.safe.copyMem (.inl hin) (.inr ⟨?_, ?_⟩)
      · exact Nat.le_trans hdata (Nat.le_add_right _ _)
      · simp only
        omega
    · simp only [copyMem, write_read]
      split
      · rw [hmem, write_read, if_pos (by omega)]
        congr 1
        omega
      · rw [hmem, write_read, if_neg]
        have := hpool i hi
        omega
  · rename_i hs
    have hfailed := fun h => hs _ (Prod.ext h rfl)
    refine ⟨⟨fun h => absurd h hfailed, fun _ => ⟨hread.safe, hread.disk, fun i hi _ => ?_⟩⟩, fun h => absurd h hfailed⟩
    exact hread.failure hfailed i (hpool i hi)

theorem directRead_spec {lba a n : Nat} (s : State) (hin : Inside r.buffer r.bufferSize (a, n))
    (ha : Aligned w.media a) :
    Ended (ReadMoved w r preData) (ReadStopped w r preData) s (lba * w.media.blockSize) a n
      (readBlocks w r.mediaId lba n a s) := by
  have hread : BlocksRead w r preData lba n a s _ := readBlocks_spec s (.inl hin) ha
  refine ⟨fun h => ⟨hread.safe, hread.disk, fun i _ => ?_⟩, fun h => ⟨hread.safe, hread.disk, fun i _ => ?_⟩⟩
  · rw [(hread.success h).2, write_read]
  · exact hread.failure h i

/-! ## Writing -/

structure WriteMoved (w : World) (r : Request) (preData : Nat) (s s' : State) (o a n : Nat) : Prop where
  safe : Safe w r preData s s'
  memory : ∀ i, ¬InPool w preData i → s'.memory i = s.memory i
  disk : ∀ i, s'.disk i = if o ≤ i ∧ i < o + n then s.memory (a + (i - o)) else s.disk i

structure WriteStopped (w : World) (r : Request) (preData : Nat) (s s' : State) (o n : Nat) : Prop where
  safe : Safe w r preData s s'
  memory : ∀ i, ¬InPool w preData i → s'.memory i = s.memory i
  disk : ∀ i, i < o ∨ o + n ≤ i → s'.disk i = s.disk i

/-- The bounce buffer does not reach into the buffer of the request. -/
def Apart (w : World) (r : Request) (preData : Nat) : Prop :=
  preData + poolSize w.media ≤ r.buffer ∨ r.buffer + r.bufferSize ≤ preData

theorem Apart.not_inPool (hap : Apart w r preData) {a n i : Nat} (hin : Inside r.buffer r.bufferSize (a, n))
    (h₁ : a ≤ i) (h₂ : i < a + n) : ¬InPool w preData i := by
  have h3 := hin.1
  have h4 := hin.2
  simp only at h3 h4
  unfold Apart at hap
  unfold InPool
  omega

theorem Apart.buffer (hap : Apart w r preData) {j : Nat} (hj : j < r.bufferSize) : ¬InPool w preData (r.buffer + j) :=
  hap.not_inPool (a := r.buffer) (n := r.bufferSize) ⟨Nat.le_refl _, Nat.le_refl _⟩ (Nat.le_add_right _ _) (by omega)

theorem WriteMoved.append (hap : Apart w r preData) {s s₁ s₂ : State} {o a n k : Nat}
    (hin : Inside r.buffer r.bufferSize (a, n + k)) (h₁ : WriteMoved w r preData s s₁ o a n)
    (h₂ : WriteMoved w r preData s₁ s₂ (o + n) (a + n) k) : WriteMoved w r preData s s₂ o a (n + k) := by
  refine ⟨h₁.safe.trans h₂.safe, fun i hi => (h₂.memory i hi).trans (h₁.memory i hi), fun i => ?_⟩
  rw [h₂.disk i, h₁.disk i]
  by_cases hn : i < o + n
  · rw [if_neg (by omega)]
    exact if_congr (by omega) rfl rfl
  · by_cases hk : o + n ≤ i ∧ i < o + n + k
    · rw [if_pos hk, if_pos (by omega), h₁.memory _ (hap.not_inPool hin (by omega) (by omega)),
        show a + n + (i - (o + n)) = a + (i - o) by omega]
    · rw [if_neg hk, if_neg (by omega), if_neg (by omega)]

theorem WriteMoved.stopped {s s₁ s₂ : State} {o a n k : Nat} (h₁ : WriteMoved w r preData s s₁ o a n)
    (h₂ : WriteStopped w r preData s₁ s₂ (o + n) k) : WriteStopped w r preData s s₂ o (n + k) := by
  refine ⟨h₁.safe.trans h₂.safe, fun i hi => (h₂.memory i hi).trans (h₁.memory i hi), fun i hout => ?_⟩
  rw [h₂.disk i (by omega), h₁.disk i, if_neg (by omega)]

/-- Blocks whose new contents are in the bounce buffer: the bytes of the part, and the old ones around it. -/
theorem bouncedWrite_spec {data lba size a n : Nat} (underRun : Nat) {s s₁ : State} (hdata : preData ≤ data)
    (hfit : data + size ≤ preData + poolSize w.media) (halign : Aligned w.media data)
    (hsafe : Safe w r preData s s₁) (hmem : ∀ i, ¬InPool w preData i → s₁.memory i = s.memory i)
    (hdisk : s₁.disk = s.disk)
    (hcontents : ∀ j, j < size → s₁.memory (data + j) =
      if underRun ≤ j ∧ j < underRun + n then s.memory (a + (j - underRun))
      else s.disk (lba * w.media.blockSize + j))
    (hn : underRun + n ≤ size) :
    Ended (WriteMoved w r preData) (fun s s' o _ n => WriteStopped w r preData s s' o n) s
      (lba * w.media.blockSize + underRun) a n (writeBlocks w r.mediaId lba size data s₁) := by
  have hwrite : BlocksWritten w r preData lba size data s₁ _ := writeBlocks_spec s₁ (.inr ⟨hdata, hfit⟩) halign
  constructor
  · intro h
    refine ⟨hsafe.trans hwrite.safe, fun i hi => by rw [hwrite.memory, hmem i hi], fun i => ?_⟩
    rw [(hwrite.success h).2, write_read]
    by_cases hblock : lba * w.media.blockSize ≤ i ∧ i < lba * w.media.blockSize + size
    · rw [if_pos hblock, hcontents _ (by omega)]
      refine if_congr (by omega) ?_ ?_
      · congr 1
        omega
      · congr 1
        omega
    · rw [if_neg hblock, if_neg (by omega), hdisk]
  · intro h
    refine ⟨hsafe.trans hwrite.safe, fun i hi => by rw [hwrite.memory, hmem i hi], fun i hout => ?_⟩
    rcases hwrite.failure h i with hsame | ⟨h1, h2, hnew⟩
    · rw [hsame, hdisk]
    · rw [hnew, hcontents _ (by omega), if_neg (by omega)]
      congr 1
      omega

/-- A part of a block: the block is read, changed and written. -/
theorem partOfWrite_spec {data lba underRun a n : Nat} (s : State) (hdata : preData ≤ data)
    (hfit : data + w.media.blockSize ≤ preData + poolSize w.media) (halign : Aligned w.media data)
    (hap : Apart w r preData) (hn : underRun + n ≤ w.media.blockSize) (hin : Inside r.buffer r.bufferSize (a, n)) :
    Ended (WriteMoved w r preData) (fun s s' o _ n => WriteStopped w r preData s s' o n) s
      (lba * w.media.blockSize + underRun) a n ((writeParts w r.mediaId data).partOf lba underRun a n s) := by
  have hread : BlocksRead w r preData lba w.media.blockSize data s _ := readBlocks_spec s (.inr ⟨hdata, hfit⟩) halign
  have hpool : ∀ i, ¬InPool w preData i → i < data ∨ data + w.media.blockSize ≤ i := by
    intro i hi
    unfold InPool at hi
    omega
  simp only [writeParts]
  split
  · rename_i s₁ hs
    rw [hs] at hread
    obtain ⟨-, hmem⟩ := hread.success rfl
    have hsame : ∀ i, ¬InPool w preData i → s₁.memory i = s.memory i := by
      intro i hi
      rw [hmem, write_read, if_neg]
      have := hpool i hi
      omega
    refine bouncedWrite_spec underRun hdata hfit halign ?_ (fun i hi => ?_) hread.disk (fun j hj => ?_) hn
    · refine hread.safe.copyMem (.inr ⟨?_, ?_⟩) (.inl hin)
      · exact Nat.le_trans hdata (Nat.le_add_right _ _)
      · simp only
        omega
    · simp only [copyMem, write_read]
      rw [if_neg, hsame i hi]
      have := hpool i hi
      omega
    · simp only [copyMem, write_read]
      refine if_ctx_congr (by omega) (fun hj' => ?_) fun _ => ?_
      · rw [hsame _ (hap.not_inPool hin (by omega) (by omega))]
        congr 1
        omega
      · rw [hmem, write_read, if_pos (by omega), Nat.add_sub_cancel_left]
  · rename_i hs
    have hfailed := fun h => hs _ (Prod.ext h rfl)
    refine ⟨fun h => absurd h hfailed, fun _ => ⟨hread.safe, fun i hi => ?_, fun i _ => by rw [hread.disk]⟩⟩
    exact hread.failure hfailed i (hpool i hi)

/-- Whole blocks through the bounce buffer. -/
theorem chunkWrite_spec {data lba a n : Nat} (s : State) (hdata : preData ≤ data)
    (hfit : data + n ≤ preData + poolSize w.media) (halign : Aligned w.media data)
    (hin : Inside r.buffer r.bufferSize (a, n)) :
    Ended (WriteMoved w r preData) (fun s s' o _ n => WriteStopped w r preData s s' o n) s
      (lba * w.media.blockSize) a n ((writeParts w r.mediaId data).bounced lba a n s) := by
  refine bouncedWrite_spec 0 hdata hfit halign ?_ (fun i hi => ?_) rfl (fun j hj => ?_) (by omega)
  · exact (Safe.refl s).copyMem (.inr ⟨hdata, hfit⟩) (.inl hin)
  · simp only [copyMem, write_read]
    unfold InPool at hi
    rw [if_neg (by omega)]
  · simp only [copyMem, write_read]
    rw [if_pos (by omega), if_pos (by omega), Nat.add_sub_cancel_left, Nat.sub_zero]

theorem directWrite_spec {lba a n : Nat} (s : State) (hin : Inside r.buffer r.bufferSize (a, n))
    (ha : Aligned w.media a) :
    Ended (WriteMoved w r preData) (fun s s' o _ n => WriteStopped w r preData s s' o n) s (lba * w.media.blockSize) a n
      (writeBlocks w r.mediaId lba n a s) := by
  have hwrite : BlocksWritten w r preData lba n a s _ := writeBlocks_spec s (.inl hin) ha
  constructor
  · intro h
    refine ⟨hwrite.safe, fun i _ => by rw [hwrite.memory], fun i => ?_⟩
    rw [(hwrite.success h).2, write_read]
  · intro h
    refine ⟨hwrite.safe, fun i _ => by rw [hwrite.memory], fun i hout => ?_⟩
    rcases hwrite.failure h i with hsame | ⟨h1, h2, -⟩
    · exact hsame
    · omega

/-! ## Both routines -/

theorem dataOf_spec (hm : w.media.Valid) :
    preData ≤ dataOf w.media preData ∧ dataOf w.media preData + dataBufferSize w.media ≤ preData + poolSize w.media ∧
      Aligned w.media (dataOf w.media preData) := by
  unfold dataOf poolSize Aligned
  by_cases h : 1 < w.media.ioAlign
  · rw [if_pos h, if_pos h, and_ioAlign hm h]
    have hmod := Nat.mod_lt preData (Nat.lt_trans Nat.zero_lt_one h)
    have hle := Nat.mod_le preData w.media.ioAlign
    refine ⟨by omega, by omega, fun _ => ?_⟩
    rw [Nat.add_mod_right, ← Nat.div_mul_self_eq_mod_sub_self, Nat.mul_mod_left]
  · rw [if_neg h, if_neg h]
    exact ⟨Nat.le_refl _, Nat.le_refl _, fun h' => absurd h' h⟩

theorem readParts_correct (hm : w.media.Valid) (hle : w.media.blockSize ≤ dataBufferSize w.media) :
    (readParts w r.mediaId (dataOf w.media preData)).Correct w.media r (ReadMoved w r preData)
      (ReadStopped w r preData) := by
  obtain ⟨h1, h2, h3⟩ := @dataOf_spec w preData hm
  refine ⟨?_, ?_, ?_, ?_, ?_, ?_, ?_⟩
  · exact fun s o a => ⟨.refl s, rfl, fun i _ => by rw [if_neg (by omega)]⟩
  · exact fun _ => ReadMoved.append
  · exact ReadMoved.stopped
  · exact fun k h => ⟨h.safe, h.disk, fun i hi hout => h.memory i hi (by omega)⟩
  · exact fun lba underRun a n s hn _ hin => (bouncedRead_spec underRun s h1 (by omega) h3 hn hin).1
  · exact fun lba a n s _ _ hin ha => directRead_spec s hin ha
  · intro lba a n s hn _ hin
    exact bouncedRead_spec 0 s h1 (by omega) h3 (by omega) hin

theorem writeParts_correct (hm : w.media.Valid) (hle : w.media.blockSize ≤ dataBufferSize w.media)
    (hap : Apart w r preData) :
    (writeParts w r.mediaId (dataOf w.media preData)).Correct w.media r (WriteMoved w r preData)
      (fun s s' o _ n => WriteStopped w r preData s s' o n) := by
  obtain ⟨h1, h2, h3⟩ := @dataOf_spec w preData hm
  refine ⟨?_, ?_, ?_, ?_, ?_, ?_, ?_⟩
  · exact fun s o a => ⟨.refl s, fun _ _ => rfl, fun i => by rw [if_neg (by omega)]⟩
  · exact WriteMoved.append hap
  · exact WriteMoved.stopped
  · exact fun k h => ⟨h.safe, h.memory, fun i hout => h.disk i (by omega)⟩
  · exact fun lba underRun a n s hn _ hin => partOfWrite_spec s h1 (by omega) h3 hap hn hin
  · exact fun lba a n s _ _ hin ha => directWrite_spec s hin ha
  · intro lba a n s hn _ hin
    refine ⟨chunkWrite_spec s h1 (by omega) h3 hin, fun h => ?_⟩
    have hwrite : BlocksWritten w r preData lba n (dataOf w.media preData) _ _ :=
      writeBlocks_spec (copyMem (dataOf w.media preData) a n s) (.inr ⟨h1, by simp only; omega⟩) h3
    exact (hwrite.success h).1

end

/-! ## What the two routines do -/

/-- `DiskIoReadDisk` reads the bytes of the disk, and touches nothing else. -/
structure ReadCorrect (w : World) (r : Request) (s : State) (result : EfiStatus × State) : Prop where
  disk : result.2.disk = s.disk
  bytes : result.1 = .success → read result.2.memory r.buffer r.bufferSize = read s.disk r.offset r.bufferSize
  touched : ∀ t ∈ result.2.touched, t ∈ s.touched ∨
    ∃ p, w.allocatePool (poolSize w.media) = some p ∧ Own w r p t
  passed : ∀ p ∈ result.2.passed, p ∈ s.passed ∨ Aligned w.media p

/-- `DiskIoWriteDisk` changes just the bytes of the range, and when it fails nothing outside of it. -/
structure WriteCorrect (w : World) (r : Request) (s : State) (result : EfiStatus × State) : Prop where
  buffer : read result.2.memory r.buffer r.bufferSize = read s.memory r.buffer r.bufferSize
  bytes : result.1 = .success →
    result.2.disk = write s.disk r.offset (read s.memory r.buffer r.bufferSize)
  outside : ∀ i, i < r.offset ∨ r.offset + r.bufferSize ≤ i → result.2.disk i = s.disk i
  touched : ∀ t ∈ result.2.touched, t ∈ s.touched ∨
    ∃ p, w.allocatePool (poolSize w.media) = some p ∧ Own w r p t
  passed : ∀ p ∈ result.2.passed, p ∈ s.passed ∨ Aligned w.media p

section
variable {w : World} {r : Request} {s : State} {fuel : Nat}

theorem ReadCorrect.refused {status : EfiStatus} (h : status ≠ .success) : ReadCorrect w r s (status, s) :=
  ⟨rfl, fun h' => absurd h' h, fun _ => .inl, fun _ => .inl⟩

theorem WriteCorrect.refused {status : EfiStatus} (h : status ≠ .success) : WriteCorrect w r s (status, s) :=
  ⟨rfl, fun h' => absurd h' h, fun _ _ => rfl, fun _ => .inl, fun _ => .inl⟩

theorem diskIoReadDisk_spec (hm : w.media.Valid) (hle : w.media.blockSize ≤ dataBufferSize w.media)
    (hfuel : r.bufferSize ≤ fuel) (hr : r.Valid w.media) (hfresh : Fresh w r) :
    ∃ result, diskIoReadDisk w fuel r s = some result ∧ ReadCorrect w r s result := by
  unfold diskIoReadDisk
  split
  · exact ⟨_, rfl, .refused (by simp)⟩
  split
  · exact ⟨_, rfl, .refused (by simp)⟩
  rename_i p hp
  obtain ⟨result, hresult, hok, hfailed⟩ := takeApart_spec hm
    (@readParts_correct w r p hm hle) hle (s := s) hfuel hr
  have hap : Apart w r p := hfresh p hp
  refine ⟨result, hresult, ?_⟩
  by_cases h : result.1 = .success
  · have hmoved := hok h
    refine ⟨hmoved.disk, fun _ => read_eq_of_forall fun j hj => ?_, fun t ht => ?_, hmoved.safe.passed⟩
    · rw [hmoved.memory _ (hap.buffer hj), if_pos (by omega), Nat.add_sub_cancel_left]
    · exact (hmoved.safe.touched t ht).imp_right fun h => ⟨p, hp, h⟩
  · have hstop := hfailed h
    refine ⟨hstop.disk, fun h' => absurd h' h, fun t ht => ?_, hstop.safe.passed⟩
    exact (hstop.safe.touched t ht).imp_right fun h => ⟨p, hp, h⟩

theorem diskIoWriteDisk_spec (hm : w.media.Valid) (hle : w.media.blockSize ≤ dataBufferSize w.media)
    (hfuel : r.bufferSize ≤ fuel) (hr : r.Valid w.media) (hfresh : Fresh w r) :
    ∃ result, diskIoWriteDisk w fuel r s = some result ∧ WriteCorrect w r s result := by
  unfold diskIoWriteDisk
  split
  · exact ⟨_, rfl, .refused (by simp)⟩
  split
  · exact ⟨_, rfl, .refused (by simp)⟩
  split
  · exact ⟨_, rfl, .refused (by simp)⟩
  rename_i p hp
  have hap : Apart w r p := hfresh p hp
  obtain ⟨result, hresult, hok, hfailed⟩ := takeApart_spec hm (writeParts_correct hm hle hap) hle (s := s) hfuel hr
  refine ⟨result, hresult, ?_⟩
  have hbuffer : (∀ i, ¬InPool w p i → result.2.memory i = s.memory i) →
      read result.2.memory r.buffer r.bufferSize = read s.memory r.buffer r.bufferSize := fun h =>
    read_eq_of_forall fun j hj => h _ (hap.buffer hj)
  by_cases h : result.1 = .success
  · have hmoved := hok h
    refine ⟨hbuffer hmoved.memory, fun _ => ?_, fun i hout => ?_, fun t ht => ?_, hmoved.safe.passed⟩
    · funext i
      rw [hmoved.disk, write_read]
    · rw [hmoved.disk, if_neg (by omega)]
    · exact (hmoved.safe.touched t ht).imp_right fun h => ⟨p, hp, h⟩
  · have hstop := hfailed h
    refine ⟨hbuffer hstop.memory, fun h' => absurd h' h, hstop.disk, fun t ht => ?_, hstop.safe.passed⟩
    exact (hstop.safe.touched t ht).imp_right fun h => ⟨p, hp, h⟩

end

/-! ## Which block sizes work -/

/-- An address that is aligned. -/
def alignedPool (media : Media) : Nat := if 1 < media.ioAlign then media.ioAlign else 1

theorem dataOf_alignedPool {media : Media} (hm : media.Valid) :
    dataOf media (alignedPool media) + dataBufferSize media = alignedPool media + poolSize media := by
  unfold dataOf poolSize alignedPool
  by_cases h : 1 < media.ioAlign
  · simp only [h, if_true]
    rw [and_ioAlign hm h, Nat.mod_self]
    omega
  · simp only [h, if_false]

theorem alignedPool_pos (media : Media) : 0 < alignedPool media := by
  unfold alignedPool
  split
  · omega
  · exact Nat.zero_lt_one

/-- A device that does not fail. -/
def soundWorld (media : Media) : World := ⟨media, fun _ => some (alignedPool media), fun _ => none⟩

def startState : State := ⟨fun _ => 0, fun _ => 0, 0, [], []⟩

/-- The second byte of the medium. -/
def oneByte (media : Media) : Request := ⟨media.mediaId, 1, 1, 0⟩

theorem two_pow_le_blockSize {media : Media} (hlt : dataBufferSize media < media.blockSize) :
    2 ^ 26 ≤ media.blockSize := by
  by_contra h
  have := blockSize_le_of_lt (Nat.not_le.mp h)
  omega

theorem oneByte_valid {media : Media} (hlt : dataBufferSize media < media.blockSize) : (oneByte media).Valid media := by
  have hbig := two_pow_le_blockSize hlt
  exact (show 1 + 1 ≤ media.blockSize by omega).trans (Nat.le_mul_of_pos_left _ (Nat.succ_pos _))

theorem oneByte_fresh (media : Media) : Fresh (soundWorld media) (oneByte media) := by
  intro p hp
  obtain rfl := Option.some.inj hp
  exact .inr (alignedPool_pos media)

/-- The block that is read does not fit into the bounce buffer. -/
theorem oneByte_overflows {media : Media} (hm : media.Valid) (hlt : dataBufferSize media < media.blockSize) :
    ∃ result, diskIoReadDisk (soundWorld media) 1 (oneByte media) startState = some result ∧
      ¬ReadCorrect (soundWorld media) (oneByte media) startState result := by
  have hbig := two_pow_le_blockSize hlt
  have hdata := dataOf_alignedPool hm
  obtain ⟨-, -, halign⟩ := @dataOf_spec (soundWorld media) (alignedPool media) hm
  have hcheck : checkBlocks media media.mediaId 0 media.blockSize (dataOf media (alignedPool media)) = .success := by
    unfold checkBlocks
    rw [if_neg (not_not_intro rfl), if_neg (by simp), Nat.div_self hm.blockSize, if_neg (by omega),
      if_neg fun h => h.2 (halign h.1)]
  have hread : ∃ m, readBlocks (soundWorld media) media.mediaId 0 media.blockSize (dataOf media (alignedPool media))
      startState = (.success, ⟨m, startState.disk, 1, [(dataOf media (alignedPool media), media.blockSize)],
        [dataOf media (alignedPool media)]⟩) := by
    unfold readBlocks
    simp only [soundWorld, hcheck]
    exact ⟨_, rfl⟩
  obtain ⟨m, hread⟩ := hread
  have hlba : 1 / media.blockSize = 0 := Nat.div_eq_of_lt (by omega)
  have hunder : 1 % media.blockSize = 1 := Nat.mod_eq_of_lt (by omega)
  have hlength : min (media.blockSize - 1) 1 = 1 := by omega
  have hresult : ∃ s', diskIoReadDisk (soundWorld media) 1 (oneByte media) startState = some (.success, s') ∧
      (dataOf media (alignedPool media), media.blockSize) ∈ s'.touched := by
    simp only [diskIoReadDisk, soundWorld, oneByte, takeApart, readParts, hlba, hunder, hlength] at hread ⊢
    rw [if_neg (not_not_intro rfl), if_neg Nat.one_ne_zero, hread]
    refine ⟨_, rfl, ?_⟩
    simp only [copyMem]
    exact List.mem_cons_of_mem _ (List.mem_cons_of_mem _ List.mem_cons_self)
  obtain ⟨s', hresult, hmem⟩ := hresult
  refine ⟨_, hresult, fun hcorrect => ?_⟩
  rcases hcorrect.touched _ hmem with hold | ⟨p, hp, hown⟩
  · cases hold
  · obtain rfl := Option.some.inj hp
    rcases hown with ⟨-, hend⟩ | ⟨-, hend⟩
    · simp only [oneByte] at hend
      omega
    · simp only [soundWorld] at hend
      omega

/-- Sixteen blocks of four bytes. -/
def sampleMedia : Media := ⟨7, false, 4, 4, 15⟩

def sampleWorld : World := ⟨sampleMedia, fun _ => some 1001, fun _ => none⟩

/-- From the last byte of the first block to the first one of the fourth block. -/
def sampleRequest : Request := ⟨7, 3, 10, 101⟩

/-- Byte `i` of the disk is `i`, and that of the memory is `i + 100`. -/
def sampleState : State := ⟨fun i => UInt8.ofNat (i + 100), UInt8.ofNat, 0, [], []⟩

theorem sampleMedia_valid : sampleMedia.Valid := ⟨by decide, by decide, .inr ⟨2, rfl⟩, by decide⟩

example : (diskIoReadDisk sampleWorld 10 sampleRequest sampleState).map
    (fun result => (result.1, result.2.calls, read result.2.memory 101 10)) =
      some (.success, 3, [3, 4, 5, 6, 7, 8, 9, 10, 11, 12]) := by
  decide +kernel

end Udk.DiskIo
