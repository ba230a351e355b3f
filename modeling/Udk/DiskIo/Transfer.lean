import Mathlib.Data.Nat.Prime.Basic
import Mathlib.Algebra.Ring.Parity
import Udk.DiskIo.Service

/-! # A request and its parts -/

namespace Udk.DiskIo

open Bytes

/-! ## What the caller promises -/

/-- The block size is positive, and `IoAlign` is 0, 1 or another power of two. -/
structure Media.Valid (media : Media) : Prop where
  blockSize : 0 < media.blockSize
  blockSize_lt : media.blockSize < 2 ^ 32
  ioAlign : media.ioAlign = 0 ∨ ∃ k, media.ioAlign = 2 ^ k
  lastBlock : media.lastBlock < 2 ^ 64

/-- The number of bytes on the medium. -/
def Media.size (media : Media) : Nat := (media.lastBlock + 1) * media.blockSize

/-- The request stays inside of the medium. -/
def Request.Valid (media : Media) (r : Request) : Prop := r.offset + r.bufferSize ≤ media.size

/-- The pool buffer is none of the caller's. -/
def Fresh (w : World) (r : Request) : Prop :=
  ∀ p, w.allocatePool (poolSize w.media) = some p →
    p + poolSize w.media ≤ r.buffer ∨ r.buffer + r.bufferSize ≤ p

/-! ## Safe steps -/

def Inside (a n : Nat) (t : Nat × Nat) : Prop := a ≤ t.1 ∧ t.1 + t.2 ≤ a + n

def Aligned (media : Media) (p : Nat) : Prop := 1 < media.ioAlign → p % media.ioAlign = 0

/-- Accesses to the buffer of the request and the bounce buffer only, and aligned pointers for `BlockIo`. -/
structure Safe (w : World) (r : Request) (preData : Nat) (s s' : State) : Prop where
  touched : ∀ t ∈ s'.touched,
    t ∈ s.touched ∨ Inside r.buffer r.bufferSize t ∨ Inside preData (poolSize w.media) t
  passed : ∀ p ∈ s'.passed, p ∈ s.passed ∨ Aligned w.media p

theorem Safe.refl {w : World} {r : Request} {preData : Nat} (s : State) : Safe w r preData s s :=
  ⟨fun _ => .inl, fun _ => .inl⟩

theorem Safe.trans {w : World} {r : Request} {preData : Nat} {s₁ s₂ s₃ : State} (h₁ : Safe w r preData s₁ s₂)
    (h₂ : Safe w r preData s₂ s₃) : Safe w r preData s₁ s₃ := by
  constructor
  · intro t ht
    rcases h₂.touched t ht with h | h
    · exact h₁.touched t h
    · exact .inr h
  · intro p hp
    rcases h₂.passed p hp with h | h
    · exact h₁.passed p h
    · exact .inr h

/-! ## Both directions -/

/-- A call moved its bytes, or it failed. -/
def Ended (Moved Stopped : State → State → Nat → Nat → Nat → Prop) (s : State) (o a n : Nat)
    (result : EfiStatus × State) : Prop :=
  (result.1 = .success → Moved s result.2 o a n) ∧ (result.1 ≠ .success → Stopped s result.2 o a n)

/-- What the routines need of the parts: each moves the bytes between offset `o` of the disk and address `a`. -/
structure Parts.Correct (media : Media) (r : Request) (parts : Parts)
    (Moved Stopped : State → State → Nat → Nat → Nat → Prop) : Prop where
  zero : ∀ s o a, Moved s s o a 0
  append : ∀ {s s₁ s₂ o a n k}, Inside r.buffer r.bufferSize (a, n + k) → Moved s s₁ o a n →
    Moved s₁ s₂ (o + n) (a + n) k → Moved s s₂ o a (n + k)
  stopped : ∀ {s s₁ s₂ o a n k}, Moved s s₁ o a n → Stopped s₁ s₂ (o + n) (a + n) k → Stopped s s₂ o a (n + k)
  weaken : ∀ {s s' o a n} k, Stopped s s' o a n → Stopped s s' o a (n + k)
  partOf : ∀ lba underRun a n s, underRun + n ≤ media.blockSize → lba ≤ media.lastBlock →
    Inside r.buffer r.bufferSize (a, n) →
    Ended Moved Stopped s (lba * media.blockSize + underRun) a n (parts.partOf lba underRun a n s)
  direct : ∀ lba a n s, n % media.blockSize = 0 → lba * media.blockSize + n ≤ media.size →
    Inside r.buffer r.bufferSize (a, n) → Aligned media a →
    Ended Moved Stopped s (lba * media.blockSize) a n (parts.direct lba a n s)
  bounced : ∀ lba a n s, n ≤ dataBufferSize media → lba * media.blockSize + n ≤ media.size →
    Inside r.buffer r.bufferSize (a, n) →
    Ended Moved Stopped s (lba * media.blockSize) a n (parts.bounced lba a n s) ∧
      ((parts.bounced lba a n s).1 = .success → n % media.blockSize = 0)

/-! ## The size of the bounce buffer -/

/-- A factor below `2 ^ (b + 1)` brings at most `b` twos. -/
theorem two_pow_dvd {a b n d : Nat} (h0 : 0 < d) (hlt : d < 2 ^ (b + 1)) (h : 2 ^ (a + b) ∣ n * d) : 2 ^ a ∣ n := by
  induction b generalizing d with
  | zero =>
    obtain rfl : d = 1 := by omega
    simpa using h
  | succ b ih =>
    rcases Nat.even_or_odd' d with ⟨e, rfl | rfl⟩
    · apply ih (d := e) (by omega) (by rw [pow_succ] at hlt; omega)
      rw [← Nat.add_assoc, pow_succ, Nat.mul_left_comm, Nat.mul_comm _ 2] at h
      exact Nat.dvd_of_mul_dvd_mul_left (by decide) h
    · have hodd : Nat.Coprime (2 ^ (a + (b + 1))) (2 * e + 1) :=
        (Nat.coprime_two_left.mpr (odd_two_mul_add_one e)).pow_left _
      exact (pow_dvd_pow 2 (Nat.le_add_right _ _)).trans (hodd.dvd_of_dvd_mul_right h)

/-- A bounce buffer of whole blocks has 64 of them: where the product wraps, it is no multiple of the block size. -/
theorem dataBufferSize_eq {media : Media} (hm : media.Valid) (hle : media.blockSize ≤ dataBufferSize media)
    (h : dataBufferSize media % media.blockSize = 0) : dataBufferSize media = dataBufferBlockNum * media.blockSize := by
  have hpos := hm.blockSize
  unfold dataBufferSize uint32 dataBufferBlockNum at *
  generalize media.blockSize = n at *
  obtain ⟨k, hk⟩ := Nat.dvd_of_mod_eq_zero h
  have hk64 : k ≤ 64 := by
    have hmod := Nat.mod_le (n * 64) (2 ^ 32)
    rw [hk] at hmod
    exact Nat.le_of_mul_le_mul_left hmod hpos
  have hk0 : 0 < k := by
    rcases Nat.eq_zero_or_pos k with rfl | h0
    · omega
    · exact h0
  rcases Nat.lt_or_eq_of_le hk64 with hlt | rfl
  · -- The product wraps, so 2 ^ 27 divides the block size and the product is 0.
    have hdvd : 2 ^ (27 + 5) ∣ n * (64 - k) := by
      rw [Nat.mul_sub, ← hk]
      exact Nat.dvd_sub_mod _
    obtain ⟨m, rfl⟩ : 2 ^ 27 ∣ n := two_pow_dvd (by omega) (by omega) hdvd
    have hzero : 2 ^ 27 * m * 64 % 2 ^ 32 = 0 := by omega
    omega
  · rw [hk, Nat.mul_comm]

theorem blockSize_le_of_lt {media : Media} (h : media.blockSize < 2 ^ 26) : media.blockSize ≤ dataBufferSize media := by
  unfold dataBufferSize uint32 dataBufferBlockNum
  omega

/-! ## The parts of a request together -/

section
variable {media : Media} {r : Request} {parts : Parts} {Moved Stopped : State → State → Nat → Nat → Nat → Prop}

theorem Ended.append (hp : parts.Correct media r Moved Stopped) {s s₁ : State} {o a n k : Nat}
    {result : EfiStatus × State} (hin : Inside r.buffer r.bufferSize (a, n + k)) (h₁ : Moved s s₁ o a n)
    (h₂ : Ended Moved Stopped s₁ (o + n) (a + n) k result) : Ended Moved Stopped s o a (n + k) result :=
  ⟨fun h => hp.append hin h₁ (h₂.1 h), fun h => hp.stopped h₁ (h₂.2 h)⟩

theorem lba_le {lba n : Nat} (hn : 0 < n) (hfit : lba * media.blockSize + n ≤ media.size) : lba ≤ media.lastBlock := by
  refine Nat.le_of_lt_succ (Nat.lt_of_mul_lt_mul_right (a := media.blockSize) ?_)
  unfold Media.size at hfit
  exact Nat.lt_of_lt_of_le (Nat.lt_add_of_pos_right hn) hfit

theorem bouncedLoop_spec (hm : media.Valid) (hp : parts.Correct media r Moved Stopped)
    (hle : media.blockSize ≤ dataBufferSize media) {fuel lba a n : Nat} {s : State} (hn : 0 < n) (hfuel : n ≤ fuel)
    (hfit : lba * media.blockSize + n ≤ media.size) (hin : Inside r.buffer r.bufferSize (a, n)) :
    ∃ result, bouncedLoop parts (dataBufferSize media) fuel lba a n s = some result ∧
      Ended Moved Stopped s (lba * media.blockSize) a n result := by
  induction fuel generalizing lba a n s with
  | zero => omega
  | succ fuel ih =>
    have hpos := hm.blockSize
    unfold bouncedLoop
    by_cases hlast : n ≤ dataBufferSize media
    · rw [if_pos hlast]
      exact ⟨_, rfl, (hp.bounced _ _ _ s hlast hfit hin).1⟩
    rw [if_neg hlast]
    have hin₁ : Inside r.buffer r.bufferSize (a, dataBufferSize media) := ⟨hin.1, by have := hin.2; simp only at *; omega⟩
    obtain ⟨hended, hwhole⟩ := hp.bounced lba a _ s (Nat.le_refl _) (by omega) hin₁
    split
    · rename_i s₁ hs
      rw [hs] at hended hwhole
      have hmoved := hended.1 rfl
      have hsize := dataBufferSize_eq hm hle (hwhole rfl)
      obtain ⟨k, hk⟩ : ∃ k, n = dataBufferSize media + k := ⟨n - dataBufferSize media, by omega⟩
      have hbytes : (lba + dataBufferBlockNum) * media.blockSize = lba * media.blockSize + dataBufferSize media := by
        rw [Nat.add_mul, hsize]
      have hlba : lba + dataBufferBlockNum ≤ media.lastBlock := lba_le (n := k) (by omega) (by omega)
      have hwrap : uint64 (lba + dataBufferBlockNum) = lba + dataBufferBlockNum :=
        Nat.mod_eq_of_lt (Nat.lt_of_le_of_lt hlba hm.lastBlock)
      rw [hwrap]
      obtain ⟨result, hloop, hrest⟩ := @ih (lba + dataBufferBlockNum) (a + dataBufferSize media)
        (n - dataBufferSize media) s₁ (by omega) (by omega) (by omega)
        ⟨by have := hin.1; simp only at *; omega, by have := hin.2; simp only at *; omega⟩
      refine ⟨result, hloop, ?_⟩
      subst hk
      rw [Nat.add_sub_cancel_left, hbytes] at hrest
      exact Ended.append hp hin hmoved hrest
    · rename_i failed hs
      refine ⟨_, rfl, fun h => absurd h ?_, fun h => ?_⟩
      · exact fun h => hs _ (Prod.ext h rfl)
      · have := hp.weaken (n - dataBufferSize media) (hended.2 h)
        rw [show dataBufferSize media + (n - dataBufferSize media) = n by omega] at this
        exact this

theorem and_ioAlign (hm : media.Valid) {p : Nat} (h : 1 < media.ioAlign) :
    p &&& (media.ioAlign - 1) = p % media.ioAlign := by
  rcases hm.ioAlign with h0 | ⟨k, hk⟩
  · omega
  · rw [hk, Nat.and_two_pow_sub_one_eq_mod]

theorem wholeBlocks_spec (hm : media.Valid) (hp : parts.Correct media r Moved Stopped)
    (hle : media.blockSize ≤ dataBufferSize media) {fuel lba a n : Nat} {s : State} (hn : 0 < n) (hfuel : n ≤ fuel)
    (hwhole : n % media.blockSize = 0) (hfit : lba * media.blockSize + n ≤ media.size)
    (hin : Inside r.buffer r.bufferSize (a, n)) :
    ∃ result, wholeBlocks media parts fuel lba a n s = some result ∧
      Ended Moved Stopped s (lba * media.blockSize) a n result := by
  unfold wholeBlocks
  split
  · rename_i h
    refine ⟨_, rfl, hp.direct lba a n s hwhole hfit hin fun h1 => ?_⟩
    rw [← and_ioAlign hm h1]
    exact h.resolve_left (by omega)
  · exact bouncedLoop_spec hm hp hle hn hfuel hfit hin

theorem afterUnderRun_spec (hm : media.Valid) (hp : parts.Correct media r Moved Stopped)
    (hle : media.blockSize ≤ dataBufferSize media) {fuel lba a n : Nat} {s : State} (hfuel : n ≤ fuel)
    (hfit : lba * media.blockSize + n ≤ media.size) (hin : Inside r.buffer r.bufferSize (a, n)) :
    ∃ result, afterUnderRun media parts fuel lba a n s = some result ∧
      Ended Moved Stopped s (lba * media.blockSize) a n result := by
  have hpos := hm.blockSize
  have hsplit := Nat.mod_add_div n media.blockSize
  have hrem := Nat.mod_lt n hpos
  obtain ⟨h1, h2⟩ := hin
  simp only at h1 h2
  -- The whole blocks, if there are any.
  have hwhole : ∃ result, (if media.blockSize ≤ n then
        wholeBlocks media parts fuel lba a (n - n % media.blockSize) s
      else some (.success, s)) = some result ∧
      Ended Moved Stopped s (lba * media.blockSize) a (n - n % media.blockSize) result := by
    split
    · refine wholeBlocks_spec hm hp hle (by omega) (by omega) ?_ (by omega) ⟨h1, by simp only; omega⟩
      rw [show n - n % media.blockSize = media.blockSize * (n / media.blockSize) by omega, Nat.mul_mod_right]
    · rename_i hlt
      rw [Nat.mod_eq_of_lt (Nat.not_le.mp hlt), Nat.sub_self]
      exact ⟨_, rfl, fun _ => hp.zero s _ _, fun h => absurd rfl h⟩
  obtain ⟨⟨status, s₁⟩, hresult, hended⟩ := hwhole
  unfold afterUnderRun
  simp only [hresult]
  by_cases hs : status = .success
  · subst hs
    have hmoved := hended.1 rfl
    by_cases hover : n % media.blockSize = 0
    · rw [hover, Nat.sub_zero] at hmoved
      simp only [hover, if_true]
      exact ⟨_, rfl, fun _ => hmoved, fun h => absurd rfl h⟩
    · simp only [hover, if_false]
      refine ⟨_, rfl, ?_⟩
      have hbytes : (lba + n / media.blockSize) * media.blockSize = lba * media.blockSize + (n - n % media.blockSize) := by
        rw [Nat.add_mul, Nat.mul_comm (n / _)]
        omega
      have hlba : lba + n / media.blockSize ≤ media.lastBlock :=
        lba_le (n := n % media.blockSize) (by omega) (by omega)
      have hwrap : uint64 (lba + n / media.blockSize) = lba + n / media.blockSize :=
        Nat.mod_eq_of_lt (Nat.lt_of_le_of_lt hlba hm.lastBlock)
      have hpart := hp.partOf (lba + n / media.blockSize) 0 (a + (n - n % media.blockSize)) (n % media.blockSize) s₁
        (by omega) hlba ⟨by simp only; omega, by simp only; omega⟩
      rw [hbytes, Nat.add_zero] at hpart
      rw [hwrap]
      have htotal : n - n % media.blockSize + n % media.blockSize = n := by omega
      have hall := Ended.append hp (by rw [htotal]; exact ⟨h1, h2⟩) hmoved hpart
      rw [htotal] at hall
      exact hall
  · have hstop := hp.weaken (n % media.blockSize) (hended.2 hs)
    rw [show n - n % media.blockSize + n % media.blockSize = n by omega] at hstop
    cases status <;> first | exact absurd rfl hs | exact ⟨_, rfl, fun h => absurd h (by simp), fun _ => hstop⟩

/-- A request whose bounce buffer holds a block moves exactly its bytes, or fails. -/
theorem takeApart_spec (hm : media.Valid) (hp : parts.Correct media r Moved Stopped)
    (hle : media.blockSize ≤ dataBufferSize media) {fuel : Nat} {s : State} (hfuel : r.bufferSize ≤ fuel)
    (hr : r.Valid media) :
    ∃ result, takeApart media parts fuel r s = some result ∧
      Ended Moved Stopped s r.offset r.buffer r.bufferSize result := by
  have hpos := hm.blockSize
  have hsplit := Nat.mod_add_div r.offset media.blockSize
  rw [Nat.mul_comm] at hsplit
  have hrem := Nat.mod_lt r.offset hpos
  unfold Request.Valid at hr
  unfold takeApart
  by_cases hunder : r.offset % media.blockSize = 0
  · rw [hunder, Nat.zero_add] at hsplit
    simp only [hunder, if_true]
    have h := @afterUnderRun_spec media r parts Moved Stopped hm hp hle fuel (r.offset / media.blockSize) r.buffer
      r.bufferSize s hfuel (by omega) ⟨Nat.le_refl _, Nat.le_refl _⟩
    rw [hsplit] at h
    exact h
  simp only [hunder, if_false]
  have hlba : r.offset / media.blockSize ≤ media.lastBlock :=
    lba_le (n := r.offset % media.blockSize) (by omega) (by omega)
  have hlength : min (media.blockSize - r.offset % media.blockSize) r.bufferSize ≤ r.bufferSize := Nat.min_le_right _ _
  have hpart := hp.partOf (r.offset / media.blockSize) (r.offset % media.blockSize) r.buffer
    (min (media.blockSize - r.offset % media.blockSize) r.bufferSize) s (by omega) hlba
    ⟨Nat.le_refl _, by simp only; omega⟩
  rw [show r.offset / media.blockSize * media.blockSize + r.offset % media.blockSize = r.offset by omega] at hpart
  generalize hl : min (media.blockSize - r.offset % media.blockSize) r.bufferSize = length at *
  split
  · rename_i s₁ hs
    rw [hs] at hpart
    have hmoved := hpart.1 rfl
    split
    · rename_i hdone
      obtain rfl : length = r.bufferSize := by omega
      exact ⟨_, rfl, fun _ => hmoved, fun h => absurd rfl h⟩
    · -- The request goes on with the next block.
      have hfull : length = media.blockSize - r.offset % media.blockSize := by omega
      have hnext : (r.offset / media.blockSize + 1) * media.blockSize = r.offset + length := by
        rw [Nat.add_mul, Nat.one_mul]
        omega
      have hlt : r.offset / media.blockSize + 1 ≤ media.lastBlock :=
        lba_le (n := r.bufferSize - length) (by omega) (by omega)
      have hwrap : uint64 (r.offset / media.blockSize + 1) = r.offset / media.blockSize + 1 :=
        Nat.mod_eq_of_lt (Nat.lt_of_le_of_lt hlt hm.lastBlock)
      rw [hwrap]
      obtain ⟨result, hafter, hrest⟩ := @afterUnderRun_spec media r parts Moved Stopped hm hp hle fuel
        (r.offset / media.blockSize + 1) (r.buffer + length) (r.bufferSize - length) s₁ (by omega) (by omega)
        ⟨by simp only; omega, by simp only; omega⟩
      rw [hnext] at hrest
      have htotal : length + (r.bufferSize - length) = r.bufferSize := by omega
      have hall := Ended.append hp (by rw [htotal]; exact ⟨Nat.le_refl _, Nat.le_refl _⟩) hmoved hrest
      rw [htotal] at hall
      exact ⟨result, hafter, hall⟩
  · rename_i hs
    have hfailed := fun h => hs _ (Prod.ext h rfl)
    have hstop := hp.weaken (r.bufferSize - length) (hpart.2 hfailed)
    rw [show length + (r.bufferSize - length) = r.bufferSize by omega] at hstop
    exact ⟨_, rfl, fun h => absurd h hfailed, fun _ => hstop⟩

end

end Udk.DiskIo
