import Mathlib.Data.List.TakeWhile
import Udk.Smm.Page

/-! # The page allocator of SMRAM is sound

Sums of addresses and sizes are only right as long as they stay below 2^64.
-/

namespace Udk.Smm

open Ranges (Covered)

@[irreducible] def FreePageList.limit (p : FreePageList) : Nat := p.base + p.numberOfPages * efiPageSize

theorem limit_eq (p : FreePageList) : p.limit = p.base + p.numberOfPages * 4096 := by
  unfold FreePageList.limit efiPageSize
  rfl

instance : Ranges.Ranged FreePageList := ⟨FreePageList.base, FreePageList.limit⟩

theorem hi_eq (p : FreePageList) : Ranges.hi p = p.limit := rfl

structure NodeOk (p : FreePageList) : Prop where
  aligned : p.base % 4096 = 0
  pages : 0 < p.numberOfPages
  fits : p.limit ≤ 2 ^ 64

structure MapOk (l : List FreePageList) : Prop where
  nodes : ∀ p ∈ l, NodeOk p
  apart : l.Pairwise fun p q => p.limit < q.base

/-! ## Sums in 64 bits -/

theorem uintnAdd_size (a n : Nat) : uintnAdd a (efiPagesToSize n) = (a + n * 4096) % 2 ^ 64 := Nat.add_mod_mod _ _ _

theorem uintnSub_mod {x b : Nat} (hb : b ≤ 2 ^ 64) (hle : b ≤ x) (hlt : x < 2 ^ 64 + b) :
    uintnSub (x % 2 ^ 64) b = x - b := by
  unfold uintnSub
  rw [Nat.add_sub_assoc hb, Nat.mod_add_mod, show x + (2 ^ 64 - b) = x - b + 2 ^ 64 by omega, Nat.add_mod_right,
    Nat.mod_eq_of_lt (by omega)]

/-- The address for a failure is not on a page boundary. -/
theorem ne_uintnNot {x : Nat} (h : x % 4096 = 0) : x % 2 ^ 64 ≠ uintnNot 0 := by
  intro heq
  have hmod : x % 2 ^ 64 % 4096 = x % 4096 := Nat.mod_mod_of_dvd x (by decide)
  rw [heq, h] at hmod
  exact absurd hmod (by decide)

/-- The pages of a range. -/
theorem NodeOk.sum {p : FreePageList} (h : NodeOk p) {n : Nat} (hn : n ≤ p.numberOfPages) : p.base + n * 4096 ≤ 2 ^ 64 := by
  have hfits := h.fits
  rw [limit_eq] at hfits
  exact Nat.le_trans (Nat.add_le_add_left (Nat.mul_le_mul_right _ hn) _) hfits

/-! ## The lists -/

theorem splitLast_some {α : Type} {p : α → Bool} {l before behind : List α} {x : α}
    (h : splitLast p l = some (before, x, behind)) : l = before ++ x :: behind ∧ p x ∧ ∀ y ∈ behind, p y = false := by
  induction l generalizing before with
  | nil => cases h
  | cons a l ih =>
    unfold splitLast at h
    split at h
    · rename_i hl
      obtain ⟨rfl, rfl, rfl⟩ := by simpa using h
      obtain ⟨rfl, hx, hy⟩ := ih hl
      exact ⟨rfl, hx, hy⟩
    · rename_i hl
      split at h
      · rename_i ha
        obtain ⟨rfl, rfl, rfl⟩ := by simpa using h
        refine ⟨rfl, ha, fun y hy => ?_⟩
        by_contra hpy
        obtain ⟨z, hz⟩ : ∃ z, splitLast p l = some z := by
          clear ih ha h
          induction l with
          | nil => cases hy
          | cons b l ih =>
            unfold splitLast
            cases hl' : splitLast p l with
            | some z => exact ⟨_, rfl⟩
            | none =>
              rcases List.mem_cons.mp hy with rfl | hy
              · rw [if_pos (by simpa using hpy)]
                exact ⟨_, rfl⟩
              · obtain ⟨z, hz⟩ := ih hl' hy
                rw [hl'] at hz
                cases hz
        rw [hl] at hz
        cases hz
      · cases h

/-- A node gives way to nodes in its range. -/
theorem MapOk.replace {before behind nodes : List FreePageList} {p : FreePageList} (h : MapOk (before ++ p :: behind))
    (hn : MapOk nodes) (hin : ∀ q ∈ nodes, p.base ≤ q.base ∧ q.limit ≤ p.limit) : MapOk (before ++ (nodes ++ behind)) := by
  obtain ⟨hb, hp, hbp⟩ := List.pairwise_append.mp h.apart
  obtain ⟨hpb, hh⟩ := List.pairwise_cons.mp hp
  refine ⟨fun q hq => ?_, List.pairwise_append.mpr ⟨hb, List.pairwise_append.mpr ⟨hn.apart, hh, fun q hq r hr => ?_⟩,
    fun q hq r hr => ?_⟩⟩
  · rcases List.mem_append.mp hq with hq | hq
    · exact h.nodes q (List.mem_append_left _ hq)
    · rcases List.mem_append.mp hq with hq | hq
      · exact hn.nodes q hq
      · exact h.nodes q (List.mem_append_right _ (List.mem_cons_of_mem _ hq))
  · have := hpb r hr
    have := (hin q hq).2
    omega
  · rcases List.mem_append.mp hr with hr | hr
    · have := hbp q hq p List.mem_cons_self
      have := (hin r hr).1
      omega
    · exact hbp q hq r (List.mem_cons_of_mem _ hr)

/-! ## One node -/

/-- The nodes that stay of a range when `n` pages below the page `top` are taken. -/
def remaining (p : FreePageList) (top n : Nat) : List FreePageList :=
  (if 0 < top - n then [⟨p.base, top - n⟩] else []) ++
    if top < p.numberOfPages then [⟨p.base + top * efiPageSize, p.numberOfPages - top⟩] else []

theorem mem_remaining {p q : FreePageList} {top n : Nat} :
    q ∈ remaining p top n ↔ (0 < top - n ∧ q = ⟨p.base, top - n⟩) ∨
      (top < p.numberOfPages ∧ q = ⟨p.base + top * efiPageSize, p.numberOfPages - top⟩) := by
  unfold remaining
  split <;> split <;> simp [*]

theorem remaining_covered {p : FreePageList} {top n : Nat} (x : Nat) :
    Covered (remaining p top n) x ↔ (p.base ≤ x ∧ x < p.base + (top - n) * efiPageSize) ∨
      (top < p.numberOfPages ∧ p.base + top * efiPageSize ≤ x ∧ x < p.limit) := by
  constructor
  · rintro ⟨q, hq, h1, h2⟩
    rcases mem_remaining.mp hq with ⟨-, rfl⟩ | ⟨hlt, rfl⟩
    · rw [hi_eq, limit_eq] at h2
      exact .inl ⟨h1, h2⟩
    · simp only [Ranges.lo, Ranges.hi, limit_eq, efiPageSize] at h1 h2 ⊢
      omega
  · rintro (⟨h1, h2⟩ | ⟨hlt, h1, h2⟩)
    · refine ⟨_, mem_remaining.mpr (.inl ⟨?_, rfl⟩), h1, ?_⟩
      · by_contra h0
        rw [Nat.eq_zero_of_not_pos h0] at h2
        omega
      · rw [hi_eq, limit_eq]
        exact h2
    · refine ⟨_, mem_remaining.mpr (.inr ⟨hlt, rfl⟩), h1, ?_⟩
      simp only [Ranges.hi, limit_eq, efiPageSize] at h2 ⊢
      omega

theorem remaining_ok {p : FreePageList} {top n : Nat} (h : NodeOk p) (htop : top ≤ p.numberOfPages)
    (hsplit : n = 0 → top = p.numberOfPages) :
    MapOk (remaining p top n) ∧ ∀ q ∈ remaining p top n, p.base ≤ q.base ∧ q.limit ≤ p.limit := by
  obtain ⟨haligned, hpages, hfits⟩ := h
  have hin : ∀ q ∈ remaining p top n, (q.base % 4096 = 0 ∧ 0 < q.numberOfPages) ∧ p.base ≤ q.base ∧ q.limit ≤ p.limit := by
    intro q hq
    rw [limit_eq, limit_eq]
    rcases mem_remaining.mp hq with ⟨hpos, rfl⟩ | ⟨hlt, rfl⟩
    · exact ⟨⟨haligned, hpos⟩, Nat.le_refl _, by dsimp only; omega⟩
    · simp only [efiPageSize]
      exact ⟨by omega, by omega⟩
  refine ⟨⟨fun q hq => ⟨(hin q hq).1.1, (hin q hq).1.2, Nat.le_trans (hin q hq).2.2 hfits⟩, ?_⟩, fun q hq => (hin q hq).2⟩
  unfold remaining
  split <;> split
  · have hn : 0 < n := Nat.pos_of_ne_zero fun h0 => by have := hsplit h0; omega
    simp only [List.cons_append, List.nil_append, List.pairwise_cons, List.mem_singleton, forall_eq,
      List.not_mem_nil, limit_eq, efiPageSize]
    exact ⟨by omega, nofun, .nil⟩
  · exact List.pairwise_singleton _ _
  · exact List.pairwise_singleton _ _
  · exact .nil

/-- What is taken of a range, and where the list is right again. -/
structure Taken (l l' : List FreePageList) (address n : Nat) : Prop where
  free : ∀ x, address ≤ x → x < address + n * efiPageSize → Covered l x
  left : ∀ x, Covered l' x ↔ Covered l x ∧ ¬(address ≤ x ∧ x < address + n * efiPageSize)

/-- The pages of a range up to `top` are there for the request. -/
theorem onOneNode_spec {before behind : List FreePageList} {p : FreePageList} {n maxAddress top : Nat}
    (h : MapOk (before ++ p :: behind)) (htop : truncateToPages (uintnSub (uintnAdd maxAddress 1) p.base) = top)
    (hn : n ≤ top) (hpos : 0 < top) (hle : n ≤ p.numberOfPages) (hsplit : n = 0 → p.numberOfPages ≤ top) :
    ∃ nodes, internalAllocPagesOnOneNode p n maxAddress =
        some (uintnAdd p.base (efiPagesToSize (min top p.numberOfPages - n)), nodes) ∧
      MapOk (before ++ (nodes ++ behind)) ∧
      Taken (before ++ p :: behind) (before ++ (nodes ++ behind))
        (p.base + (min top p.numberOfPages - n) * efiPageSize) n := by
  have hp := h.nodes p (List.mem_append_right _ List.mem_cons_self)
  obtain ⟨-, hpages, hfits⟩ := id hp
  have hmin : (if p.numberOfPages < top then p.numberOfPages else top) = min top p.numberOfPages := by
    split <;> omega
  obtain ⟨hnodes, hin⟩ := remaining_ok hp (Nat.min_le_right top p.numberOfPages)
    fun h0 : n = 0 => Nat.min_eq_right (hsplit h0)
  refine ⟨remaining p (min top p.numberOfPages) n, ?_, h.replace hnodes hin, ?_, ?_⟩
  · rw [limit_eq] at hfits
    have hsub : uintnSub (min top p.numberOfPages) n = min top p.numberOfPages - n := by
      unfold uintnSub
      omega
    unfold internalAllocPagesOnOneNode
    simp only [htop, hmin, hsub]
    rw [if_neg]
    · unfold remaining
      split
      · split
        · simp only [uintnAdd, efiPagesToSize, efiPageSize, Option.some.injEq, Prod.mk.injEq, true_and]
          congr 3
          omega
        · rfl
      · split
        · simp only [uintnAdd, efiPagesToSize, efiPageSize, Option.some.injEq, Prod.mk.injEq, true_and]
          congr 3
          omega
        · rfl
    · simp only [efiPagesToSize, efiPageSize]
      omega
  · intro x h1 h2
    rw [Ranges.covered_append, Ranges.covered_cons]
    refine .inr (.inl ⟨?_, ?_⟩)
    · simp only [Ranges.lo, efiPageSize] at *
      omega
    · simp only [Ranges.hi, limit_eq, efiPageSize] at *
      omega
  · intro x
    have hother : Covered before x ∨ Covered behind x → ¬(p.base ≤ x ∧ x < p.limit) := by
      obtain ⟨-, hps, hbp⟩ := List.pairwise_append.mp h.apart
      rintro (⟨q, hq, h1, h2⟩ | ⟨q, hq, h1, h2⟩)
      · have := hbp q hq p List.mem_cons_self
        simp only [Ranges.hi] at h2
        omega
      · have := (List.pairwise_cons.mp hps).1 q hq
        simp only [Ranges.lo] at h1
        omega
    simp only [Ranges.covered_append, Ranges.covered_cons, remaining_covered, Ranges.lo, Ranges.hi]
    simp only [limit_eq, efiPageSize] at hother ⊢
    by_cases hx : Covered before x ∨ Covered behind x
    · have := hother hx
      rcases hx with hx | hx <;> simp only [hx, true_or, or_true, true_and, true_iff] <;> omega
    · obtain ⟨h1, h2⟩ := not_or.mp hx
      simp only [h1, h2, false_or, or_false]
      omega

/-- Where no pages are does not matter. -/
theorem Taken.none {l l' : List FreePageList} {address : Nat} (h : Taken l l' address 0) (a : Nat) : Taken l l' a 0 :=
  ⟨fun x h1 h2 => by omega, fun x => (h.left x).trans (and_congr_right fun _ => by omega)⟩

/-! ## Allocation -/

/-- The range that is picked does not start at 0 when the sum is 2^64, and is not split for no pages. -/
def MaxAddressOk (l : List FreePageList) (n maxAddress : Nat) : Prop :=
  ∀ x ∈ splitLast (FreePageList.fits n maxAddress) l,
    (x.2.1.base = 0 → maxAddress + 1 < 2 ^ 64) ∧ (n = 0 → x.2.1.limit ≤ maxAddress + 1)

/-- The pages from `address` on end in the range that is picked, if it is not refused. -/
def AddressOk (l : List FreePageList) (n address : Nat) : Prop :=
  offPage address = 0 → ∀ x ∈ splitLast (fun p => p.base ≤ address) l,
    x.2.1.endAddress < uintnAdd address (efiPagesToSize n) ∨
      address + n * efiPageSize ≤ x.2.1.limit ∧ (n = 0 → x.2.1.limit = address) ∧
        (x.2.1.base = 0 → address + n * efiPageSize < 2 ^ 64)

theorem allocMaxAddress_spec {l : List FreePageList} {n maxAddress : Nat} (h : MapOk l) (hmax : maxAddress < 2 ^ 64)
    (hok : MaxAddressOk l n maxAddress) :
    internalAllocMaxAddress l n maxAddress = some (uintnNot 0, l) ∨
    ∃ address l', internalAllocMaxAddress l n maxAddress = some (address, l') ∧ address ≠ uintnNot 0 ∧ MapOk l' ∧
      Taken l l' address n ∧ address + n * efiPageSize ≤ maxAddress + 1 := by
  unfold internalAllocMaxAddress
  split
  · rename_i before p behind hsplit
    obtain ⟨rfl, hfits, -⟩ := splitLast_some hsplit
    obtain ⟨hzero, hnone⟩ := hok _ hsplit
    have hp := h.nodes p (List.mem_append_right _ List.mem_cons_self)
    have haligned : p.base % 4096 = 0 := hp.aligned
    have hpages := hp.pages
    simp only [FreePageList.fits, Bool.and_eq_true, decide_eq_true_eq, uintnAdd_size] at hfits
    obtain ⟨hle, hend⟩ := hfits
    have hsum := hp.sum hle
    have hbelow : p.base + n * 4096 ≤ maxAddress + 1 := by
      rcases Nat.eq_zero_or_pos (p.base + n * 4096) with h0 | hpos
      · omega
      · rw [uintnSub_mod (by decide) hpos (by omega)] at hend
        omega
    have hsub : uintnSub (uintnAdd maxAddress 1) p.base = maxAddress + 1 - p.base := by
      refine uintnSub_mod (by omega) (by omega) ?_
      rcases Nat.eq_zero_or_pos p.base with h0 | hpos
      · rw [h0]
        exact hzero h0
      · omega
    have htop : truncateToPages (uintnSub (uintnAdd maxAddress 1) p.base) = (maxAddress + 1 - p.base) / 4096 := by
      rw [hsub]
      rfl
    have hnone' : n = 0 → p.base + p.numberOfPages * 4096 ≤ maxAddress + 1 := limit_eq p ▸ hnone
    obtain ⟨nodes, hcall, hmap, htaken⟩ := onOneNode_spec (n := n) h htop (by omega) (by omega) hle (by omega)
    right
    refine ⟨_, _, congrArg (Option.map _) hcall, ?_, hmap, ?_⟩
    · rw [uintnAdd_size]
      exact ne_uintnNot (by omega)
    · rw [uintnAdd_size]
      rcases Nat.eq_zero_or_pos n with rfl | hn
      · refine ⟨htaken.none _, ?_⟩
        have := hnone' rfl
        have := Nat.mod_le (p.base + (min ((maxAddress + 1 - p.base) / 4096) p.numberOfPages - 0) * 4096) (2 ^ 64)
        omega
      · have hin := hp.sum (Nat.min_le_right ((maxAddress + 1 - p.base) / 4096) p.numberOfPages)
        rw [Nat.mod_eq_of_lt (by omega)]
        refine ⟨htaken, ?_⟩
        simp only [efiPageSize]
        omega
  · exact .inl rfl

theorem allocAddress_spec {l : List FreePageList} {n address : Nat} (h : MapOk l) (haddress : address < 2 ^ 64)
    (hok : AddressOk l n address) :
    internalAllocAddress l n address = some (uintnNot address, l) ∨
    ∃ l', internalAllocAddress l n address = some (address, l') ∧ MapOk l' ∧ Taken l l' address n := by
  unfold internalAllocAddress
  split
  · exact .inl rfl
  · rename_i halign
    have halign : offPage address = 0 := by simpa using halign
    simp only
    split
    · rename_i before p behind hsplit
      obtain ⟨rfl, hle, -⟩ := splitLast_some hsplit
      split
      · exact .inl rfl
      · rename_i hend
        obtain ⟨hin, hnone, hzero⟩ := (hok halign _ hsplit).resolve_left hend
        have hp := h.nodes p (List.mem_append_right _ List.mem_cons_self)
        have haligned : p.base % 4096 = 0 := hp.aligned
        have halign : address % 4096 = 0 := halign
        have hin : address + n * 4096 ≤ p.base + p.numberOfPages * 4096 := limit_eq p ▸ hin
        have hnone : n = 0 → p.base + p.numberOfPages * 4096 = address := limit_eq p ▸ hnone
        have hzero : p.base = 0 → address + n * 4096 < 2 ^ 64 := hzero
        have hle : p.base ≤ address := by simpa using hle
        have hpages := hp.pages
        have hsum := hp.sum (Nat.le_refl _)
        have hmod : uintnAdd (uintnAdd address (efiPagesToSize n)) 1 = (address + n * 4096 + 1) % 2 ^ 64 := by
          rw [uintnAdd_size]
          exact Nat.mod_add_mod _ _ _
        have htop : truncateToPages (uintnSub (uintnAdd (uintnAdd address (efiPagesToSize n)) 1) p.base) =
            (address - p.base) / 4096 + n := by
          rw [hmod, uintnSub_mod (by omega) (by omega) (by omega)]
          unfold truncateToPages efiPageSize
          omega
        obtain ⟨nodes, hcall, hmap, htaken⟩ := onOneNode_spec (n := n) h htop (by omega) (by omega) (by omega) (by omega)
        have hsame : p.base + (min ((address - p.base) / 4096 + n) p.numberOfPages - n) * 4096 = address := by omega
        rw [show efiPageSize = 4096 from rfl, hsame] at htaken
        rw [uintnAdd_size p.base, hsame, Nat.mod_eq_of_lt haddress] at hcall
        exact .inr ⟨_, congrArg (Option.map _) hcall, hmap, htaken⟩
    · exact .inl rfl

/-! ## Freeing -/

theorem mapOk_append {l l' : List FreePageList} :
    MapOk (l ++ l') ↔ MapOk l ∧ MapOk l' ∧ ∀ p ∈ l, ∀ q ∈ l', p.limit < q.base := by
  constructor
  · rintro ⟨hnodes, hapart⟩
    obtain ⟨h1, h2, h3⟩ := List.pairwise_append.mp hapart
    exact ⟨⟨fun p hp => hnodes p (List.mem_append_left _ hp), h1⟩,
      ⟨fun p hp => hnodes p (List.mem_append_right _ hp), h2⟩, h3⟩
  · rintro ⟨⟨hn1, h1⟩, ⟨hn2, h2⟩, h3⟩
    exact ⟨fun p hp => (List.mem_append.mp hp).elim (hn1 p) (hn2 p), List.pairwise_append.mpr ⟨h1, h2, h3⟩⟩

theorem mapOk_singleton {p : FreePageList} : MapOk [p] ↔ NodeOk p :=
  ⟨fun h => h.nodes p (List.mem_singleton_self p),
    fun h => ⟨fun _ hq => List.mem_singleton.mp hq ▸ h, List.pairwise_singleton _ _⟩⟩

theorem covered_singleton {p : FreePageList} {x : Nat} : Covered [p] x ↔ p.base ≤ x ∧ x < p.limit := by
  simp only [Ranges.covered_cons, Ranges.covered_nil, or_false, Ranges.lo, Ranges.hi]

/-- Behind the last of the nodes there is a new one, also one without pages. -/
theorem merge_spec {l : List FreePageList} {a b : FreePageList} (h : MapOk (l ++ [a])) (haligned : b.base % 4096 = 0)
    (hb : b.base < 2 ^ 64) (hfits : b.limit ≤ 2 ^ 64) (hle : a.limit ≤ b.base)
    (hpages : 0 < b.numberOfPages ∨ a.limit = b.base) :
    MapOk (l ++ internalMergeNodes a b) ∧
      (∀ x, Covered (l ++ internalMergeNodes a b) x ↔ Covered (l ++ [a]) x ∨ b.base ≤ x ∧ x < b.limit) ∧
      ∀ q ∈ l ++ internalMergeNodes a b, q.limit ≤ b.limit := by
  obtain ⟨hl, ha, hla⟩ := mapOk_append.mp h
  have ha := mapOk_singleton.mp ha
  have hla := fun q hq => hla q hq a (List.mem_singleton_self a)
  have hapages := ha.pages
  have hbase := ha.aligned
  have hend : b.base + b.numberOfPages * 4096 ≤ 2 ^ 64 := limit_eq b ▸ hfits
  have hsub : uintnSub b.base a.base = b.base - a.base := by
    rw [limit_eq] at hle
    have := uintnSub_mod (x := b.base) (b := a.base) (by omega) (by omega) (by omega)
    rwa [Nat.mod_eq_of_lt hb] at this
  have hlimit := limit_eq b
  rw [limit_eq] at hle hpages
  unfold internalMergeNodes
  rw [hsub]
  have htruncate : truncateToPages (b.base - a.base) = (b.base - a.base) / 4096 := rfl
  by_cases heq : truncateToPages (b.base - a.base) = a.numberOfPages
  · rw [if_pos heq]
    rw [htruncate] at heq
    have hsum : uintnAdd a.numberOfPages b.numberOfPages = a.numberOfPages + b.numberOfPages :=
      Nat.mod_eq_of_lt (by omega)
    rw [hsum]
    have hmerged : (⟨a.base, a.numberOfPages + b.numberOfPages⟩ : FreePageList).limit = b.limit := by
      simp only [limit_eq]
      omega
    refine ⟨mapOk_append.mpr ⟨hl, mapOk_singleton.mpr ⟨hbase, Nat.add_pos_left hapages _, hmerged ▸ hfits⟩, ?_⟩, ?_, ?_⟩
    · intro q hq r hr
      rw [List.mem_singleton.mp hr]
      exact hla q hq
    · intro x
      rw [Ranges.covered_append, Ranges.covered_append, covered_singleton, covered_singleton, hmerged, or_assoc]
      refine or_congr_right ?_
      simp only [limit_eq]
      omega
    · intro q hq
      rcases List.mem_append.mp hq with hq | hq
      · have := hla q hq
        omega
      · rw [List.mem_singleton.mp hq, hmerged]
  · rw [if_neg heq]
    rw [htruncate] at heq
    have hgap : a.base + a.numberOfPages * 4096 < b.base := by omega
    have hbpages : 0 < b.numberOfPages := by omega
    rw [show l ++ [a, b] = (l ++ [a]) ++ [b] by simp]
    have hbefore : ∀ q ∈ l ++ [a], q.limit < b.base := by
      intro q hq
      rcases List.mem_append.mp hq with hq | hq
      · have := hla q hq
        omega
      · rw [List.mem_singleton.mp hq, limit_eq]
        exact hgap
    refine ⟨mapOk_append.mpr ⟨h, mapOk_singleton.mpr ⟨haligned, hbpages, hfits⟩, fun q hq r hr => ?_⟩, fun x => ?_, ?_⟩
    · rw [List.mem_singleton.mp hr]
      exact hbefore q hq
    · rw [Ranges.covered_append, covered_singleton]
    · intro q hq
      rcases List.mem_append.mp hq with hq | hq
      · have := hbefore q hq
        omega
      · rw [List.mem_singleton.mp hq]

theorem mergeLast_spec {l : List FreePageList} {p : FreePageList} (h : MapOk l) (haligned : p.base % 4096 = 0)
    (hp : p.base < 2 ^ 64) (hfits : p.limit ≤ 2 ^ 64) (hbefore : ∀ q ∈ l, q.limit ≤ p.base)
    (hpages : 0 < p.numberOfPages ∨ ∃ q ∈ l, q.limit = p.base) :
    MapOk (mergeLast l p) ∧ (∀ x, Covered (mergeLast l p) x ↔ Covered l x ∨ p.base ≤ x ∧ x < p.limit) ∧
      ∀ q ∈ mergeLast l p, q.limit ≤ p.limit := by
  rcases List.eq_nil_or_concat l with rfl | ⟨init, last, rfl⟩
  · have hnil : mergeLast [] p = [p] := rfl
    rw [hnil]
    refine ⟨mapOk_singleton.mpr ⟨haligned, ?_, hfits⟩, fun x => ?_, fun q hq => ?_⟩
    · exact hpages.resolve_right fun ⟨_, hq, _⟩ => nomatch hq
    · rw [covered_singleton]
      exact ⟨.inr, fun h => h.resolve_left (Ranges.covered_nil x)⟩
    · rw [List.mem_singleton.mp hq]
  · rw [List.concat_eq_append] at *
    have hlast : last ∈ init ++ [last] := List.mem_append_right _ (List.mem_singleton_self _)
    have htouch : 0 < p.numberOfPages ∨ last.limit = p.base := by
      refine hpages.imp id fun ⟨q, hq, heq⟩ => ?_
      rcases List.mem_append.mp hq with hq | hq
      · have := (mapOk_append.mp h).2.2 q hq last (List.mem_singleton_self _)
        have := (h.nodes last hlast).pages
        have hle := hbefore last hlast
        rw [limit_eq] at hle
        omega
      · rw [← List.mem_singleton.mp hq]
        exact heq
    have hmerge : mergeLast (init ++ [last]) p = init ++ internalMergeNodes last p := by
      unfold mergeLast
      rw [List.getLast?_concat]
      dsimp only
      rw [List.dropLast_concat]
    rw [hmerge]
    exact merge_spec h haligned hp hfits (hbefore last hlast) htouch

/-- New pages between the nodes before them and those behind. -/
theorem insertPages_spec {before behind : List FreePageList} {p : FreePageList} (h : MapOk (before ++ behind))
    (haligned : p.base % 4096 = 0) (hp : p.base < 2 ^ 64) (hfits : p.limit ≤ 2 ^ 64)
    (hbefore : ∀ q ∈ before, q.limit ≤ p.base) (hbehind : ∀ q ∈ behind, p.limit ≤ q.base)
    (hpages : 0 < p.numberOfPages ∨ ∃ q ∈ before, q.limit = p.base) :
    MapOk (insertPages before behind p) ∧
      ∀ x, Covered (insertPages before behind p) x ↔ Covered (before ++ behind) x ∨ p.base ≤ x ∧ x < p.limit := by
  obtain ⟨h1, h2, h12⟩ := mapOk_append.mp h
  obtain ⟨hmap, hcovered, hle⟩ := mergeLast_spec h1 haligned hp hfits hbefore hpages
  cases behind with
  | nil =>
    rw [List.append_nil, show insertPages before [] p = mergeLast before p from rfl]
    exact ⟨hmap, hcovered⟩
  | cons following rest =>
    have hf := h2.nodes following List.mem_cons_self
    obtain ⟨-, hrest, hfr⟩ := mapOk_append.mp (show MapOk ([following] ++ rest) from h2)
    have hlt : following.base < 2 ^ 64 := by
      have hfits := hf.fits
      have := hf.pages
      rw [limit_eq] at hfits
      omega
    obtain ⟨hmap', hcovered', hle'⟩ := mergeLast_spec hmap hf.aligned hlt hf.fits
      (fun q hq => Nat.le_trans (hle q hq) (hbehind following List.mem_cons_self)) (.inl hf.pages)
    rw [show insertPages before (following :: rest) p = mergeLast (mergeLast before p) following ++ rest from rfl]
    refine ⟨mapOk_append.mpr ⟨hmap', hrest, fun q hq r hr => ?_⟩, fun x => ?_⟩
    · exact Nat.lt_of_le_of_lt (hle' q hq) (hfr following (List.mem_singleton_self _) r hr)
    · rw [Ranges.covered_append, hcovered', hcovered, Ranges.covered_append, Ranges.covered_cons]
      simp only [Ranges.lo, hi_eq]
      tauto

/-! ## The calls -/

/-- Every address of the pages is in a region. -/
def InRegions (regions : List Region) (address n : Nat) : Prop :=
  ∀ x, address ≤ x → x < address + n * efiPageSize → ∃ r ∈ regions, r.base ≤ x ∧ x < r.base + r.length

/-- The pages are refused, or they are pages of the regions and none of them is free. No pages at all are only
accepted behind a free range. -/
def FreeOk (s : PageState) (memory n : Nat) : Prop :=
  offPage memory ≠ 0 ∨
    freeRefused (s.mSmmMemoryMap.takeWhile fun p => p.base ≤ memory) (s.mSmmMemoryMap.dropWhile fun p => p.base ≤ memory)
      memory n ∨
    (0 < n ∨ ∃ p ∈ s.mSmmMemoryMap, p.limit = memory) ∧ memory + n * efiPageSize ≤ 2 ^ 64 ∧
      (∀ p ∈ s.mSmmMemoryMap, p.limit ≤ memory ∨ memory + n * efiPageSize ≤ p.base) ∧ InRegions s.regions memory n

theorem MapOk.apart_of_mem {l : List FreePageList} (h : MapOk l) {p q : FreePageList} (hp : p ∈ l) (hq : q ∈ l) :
    p = q ∨ p.limit < q.base ∨ q.limit < p.base := by
  obtain ⟨before, behind, rfl⟩ := List.append_of_mem hp
  obtain ⟨-, h2, h3⟩ := List.pairwise_append.mp h.apart
  rcases List.mem_append.mp hq with hq | hq
  · exact .inr (.inr (h3 q hq p List.mem_cons_self))
  · rcases List.mem_cons.mp hq with rfl | hq
    · exact .inl rfl
    · exact .inr (.inl ((List.pairwise_cons.mp h2).1 q hq))

theorem MapOk.base_of_dropWhile {l : List FreePageList} (h : MapOk l) {m : Nat} {q : FreePageList}
    (hq : q ∈ l.dropWhile fun p => p.base ≤ m) : m < q.base := by
  induction l with
  | nil => cases hq
  | cons a l ih =>
    obtain ⟨-, hl, hal⟩ := mapOk_append.mp (show MapOk ([a] ++ l) from h)
    rw [List.dropWhile_cons] at hq
    split at hq
    · exact ih hl hq
    · rename_i ha
      have ha : m < a.base := by simpa using ha
      rcases List.mem_cons.mp hq with rfl | hq
      · exact ha
      · have := hal a (List.mem_singleton_self a) q hq
        have := limit_eq a
        omega

theorem freePages_spec {s : PageState} {memory n : Nat} (h : MapOk s.mSmmMemoryMap) (hm : memory < 2 ^ 64)
    (hok : FreeOk s memory n) :
    smmFreePages s.mSmmMemoryMap memory n = some (.invalidParameter, s.mSmmMemoryMap) ∨
    ∃ l', smmFreePages s.mSmmMemoryMap memory n = some (.success, l') ∧ MapOk l' ∧ InRegions s.regions memory n ∧
      Taken l' s.mSmmMemoryMap memory n := by
  unfold smmFreePages
  split
  · exact .inl rfl
  · rename_i halign
    simp only
    split
    · exact .inl rfl
    · rename_i hrefused
      obtain ⟨hpages, hfits, hapart, hregions⟩ := (hok.resolve_left halign).resolve_left hrefused
      have halign : memory % 4096 = 0 := by simpa [offPage, efiPageSize] using halign
      simp only [efiPageSize] at hfits hapart
      have hne : ∀ p ∈ s.mSmmMemoryMap, p.base ≠ memory := by
        intro p hp heq
        have hpages' := (h.nodes p hp).pages
        have hlimit := limit_eq p
        rcases hapart p hp with hle | hle
        · omega
        · obtain ⟨q, hq, hqm⟩ := hpages.resolve_left (by omega)
          have hqpages := (h.nodes q hq).pages
          have hqlimit := limit_eq q
          rcases h.apart_of_mem hp hq with rfl | hlt | hlt <;> omega
      rw [if_neg (by simpa using hne)]
      have hsplit := List.takeWhile_append_dropWhile (p := fun p : FreePageList => p.base ≤ memory) (l := s.mSmmMemoryMap)
      have hlimit : (⟨memory, n⟩ : FreePageList).limit = memory + n * 4096 := limit_eq _
      -- a range that starts before the pages ends before them
      have hbefore : ∀ q ∈ s.mSmmMemoryMap.takeWhile (fun p => p.base ≤ memory), q.limit ≤ memory := by
        intro q hq
        have hbase : q.base ≤ memory := by simpa using List.mem_takeWhile_imp hq
        have hin : q ∈ s.mSmmMemoryMap := (List.takeWhile_sublist _).mem hq
        have hneq := hne q hin
        rcases hapart q hin with hle | hle
        · exact hle
        · omega
      have hbehind : ∀ q ∈ s.mSmmMemoryMap.dropWhile (fun p => p.base ≤ memory), memory + n * 4096 ≤ q.base := by
        intro q hq
        have hbase := h.base_of_dropWhile hq
        have hin : q ∈ s.mSmmMemoryMap := (List.dropWhile_sublist _).mem hq
        have hlimit := limit_eq q
        rcases hapart q hin with hle | hle
        · omega
        · exact hle
      have htouch : 0 < n ∨ ∃ q ∈ s.mSmmMemoryMap.takeWhile (fun p => p.base ≤ memory), q.limit = memory := by
        refine hpages.imp id fun ⟨q, hq, hqm⟩ => ⟨q, ?_, hqm⟩
        rw [← hsplit] at hq
        refine (List.mem_append.mp hq).resolve_right fun hq => ?_
        have hbase := h.base_of_dropWhile hq
        have hlimit := limit_eq q
        omega
      obtain ⟨hmap, hcovered⟩ := insertPages_spec (p := ⟨memory, n⟩) (hsplit.symm ▸ h) halign hm
        (hlimit ▸ hfits) hbefore (hlimit ▸ hbehind) htouch
      rw [hsplit, hlimit] at hcovered
      refine .inr ⟨_, rfl, hmap, hregions, fun x h1 h2 => ?_, fun x => ?_⟩
      · exact (hcovered x).mpr (.inr ⟨h1, h2⟩)
      · rw [hcovered x]
        have hnot : Covered s.mSmmMemoryMap x → ¬(memory ≤ x ∧ x < memory + n * 4096) := by
          rintro ⟨q, hq, h1, h2⟩ h3
          rw [hi_eq] at h2
          have h1 : q.base ≤ x := h1
          rcases hapart q hq with hle | hle <;> omega
        simp only [efiPageSize]
        tauto

/-! ## Every run -/

def PageState.start : PageState := ⟨[], []⟩

structure Sound (s : PageState) : Prop where
  map : MapOk s.mSmmMemoryMap
  inside : ∀ x, Covered s.mSmmMemoryMap x → ∃ r ∈ s.regions, r.base ≤ x ∧ x < r.base + r.length

/-- What a call is to do. -/
def CallOk (s : PageState) (c : PageCall) (status : EfiStatus) (address : Nat) (s' : PageState) : Prop :=
  match c with
  | .addMemoryRegion _ _ _ => True
  | .allocatePages type _ n memory =>
    if status = .success then
      Taken s.mSmmMemoryMap s'.mSmmMemoryMap address n ∧ (type = .allocateAddress → address = memory) ∧
        (type = .allocateMaxAddress → address + n * efiPageSize ≤ memory + 1)
    else s'.mSmmMemoryMap = s.mSmmMemoryMap
  | .freePages memory n =>
    if status = .success then Taken s'.mSmmMemoryMap s.mSmmMemoryMap memory n
    else s'.mSmmMemoryMap = s.mSmmMemoryMap

/-- Arguments of their types, and regions that do not overlap. -/
def Proper (s : PageState) : PageCall → Prop
  | .addMemoryRegion memBase memLength _ =>
    memBase < 2 ^ 64 ∧ memLength < 2 ^ 64 ∧ memBase + memLength ≤ 2 ^ 64 ∧
      ∀ r ∈ s.regions, r.base + r.length ≤ memBase ∨ memBase + memLength ≤ r.base
  | .allocatePages _ _ n memory => n < 2 ^ 64 ∧ memory < 2 ^ 64
  | .freePages memory n => memory < 2 ^ 64 ∧ n < 2 ^ 64

/-- The pages are taken from a range that has them, or freed where they may be. -/
def Within (s : PageState) : PageCall → Prop
  | .addMemoryRegion memBase memLength attributes =>
    attributes &&& unusableAttributes ≠ 0 ∨
      FreeOk ⟨s.mSmmMemoryMap, ⟨memBase, memLength⟩ :: s.regions⟩ (alignedMemBase memBase) (regionPages memBase memLength)
  | .allocatePages type memoryType n memory =>
    (memoryType ≠ efiRuntimeServicesCode ∧ memoryType ≠ efiRuntimeServicesData) ∨ n > 2 ^ 52 ∨
      match type with
      | .allocateAnyPages => MaxAddressOk s.mSmmMemoryMap n (2 ^ 64 - 1)
      | .allocateMaxAddress => MaxAddressOk s.mSmmMemoryMap n memory
      | .allocateAddress => AddressOk s.mSmmMemoryMap n memory
      | .maxAllocateType => True
  | .freePages memory n => FreeOk s memory n

def Allowed (s : PageState) (c : PageCall) : Prop := Proper s c ∧ Within s c

theorem Sound.taken {s : PageState} (h : Sound s) {l' : List FreePageList} {address n : Nat} (hmap : MapOk l')
    (htaken : Taken s.mSmmMemoryMap l' address n) : Sound { s with mSmmMemoryMap := l' } :=
  ⟨hmap, fun x hx => h.inside x ((htaken.left x).mp hx).1⟩

theorem Sound.freed {s : PageState} {l l' : List FreePageList} {address n : Nat} (hmap : MapOk l')
    (hinside : ∀ x, Covered l x → ∃ r ∈ s.regions, r.base ≤ x ∧ x < r.base + r.length)
    (hin : InRegions s.regions address n) (htaken : Taken l' l address n) : Sound { s with mSmmMemoryMap := l' } := by
  refine ⟨hmap, fun x hx => ?_⟩
  by_cases h : address ≤ x ∧ x < address + n * efiPageSize
  · exact hin x h.1 h.2
  · exact hinside x ((htaken.left x).mpr ⟨hx, h⟩)

theorem notAddress (address : Nat) : uintnNot address = address → address < 2 ^ 64 → False := by
  unfold uintnNot
  omega

theorem Sound.allocatePages {s : PageState} (h : Sound s) {type : EfiAllocateType} {memoryType : EfiMemoryType}
    {n memory : Nat} (hok : Allowed s (.allocatePages type memoryType n memory)) :
    ∃ status address s', s.call (.allocatePages type memoryType n memory) = some (status, address, s') ∧
      CallOk s (.allocatePages type memoryType n memory) status address s' ∧ Sound s' := by
  obtain ⟨⟨-, hmemory⟩, hwithin⟩ := hok
  have hsame : Sound { s with mSmmMemoryMap := s.mSmmMemoryMap } := h
  unfold PageState.call smmAllocatePages
  by_cases htype : memoryType ≠ efiRuntimeServicesCode ∧ memoryType ≠ efiRuntimeServicesData
  · simp only [if_pos htype]
    exact ⟨_, _, _, rfl, rfl, hsame⟩
  · have hmany : truncateToPages (uintnNot 0) + 1 = 2 ^ 52 := by decide
    simp only [if_neg htype, hmany]
    by_cases hn : n > 2 ^ 52
    · simp only [if_pos hn]
      exact ⟨_, _, _, rfl, rfl, hsame⟩
    · simp only [if_neg hn]
      have hwithin := (hwithin.resolve_left htype).resolve_left hn
      -- the calls of `InternalAllocMaxAddress`
      have hmax : ∀ m < 2 ^ 64, MaxAddressOk s.mSmmMemoryMap n m → (type = .allocateMaxAddress → m = memory) →
          (type ≠ .allocateAddress) → ∃ status address s',
          (((internalAllocMaxAddress s.mSmmMemoryMap n m).map fun r =>
            ((if r.1 = uintnNot 0 then .outOfResources else .success : EfiStatus), r.1, r.2)).map
              fun r => (r.1, r.2.1, { s with mSmmMemoryMap := r.2.2 })) =
            some (status, address, s') ∧
          CallOk s (.allocatePages type memoryType n memory) status address s' ∧ Sound s' := by
        intro m hm hok hsame' hne
        rcases allocMaxAddress_spec h.map hm hok with hcall | ⟨address, l', hcall, haddress, hmap, htaken, hle⟩
        · rw [hcall]
          simp only [Option.map_some, if_true]
          exact ⟨_, _, _, rfl, rfl, hsame⟩
        · rw [hcall]
          simp only [Option.map_some, if_neg haddress]
          refine ⟨_, _, _, rfl, ⟨htaken, fun h => absurd h hne, fun h => ?_⟩, h.taken hmap htaken⟩
          rw [← hsame' h]
          exact hle
      cases type with
      | allocateAnyPages => exact hmax _ (by decide) hwithin (fun h => by cases h) fun h => by cases h
      | allocateMaxAddress => exact hmax _ hmemory hwithin (fun _ => rfl) fun h => by cases h
      | allocateAddress =>
        rcases allocAddress_spec h.map hmemory hwithin with hcall | ⟨l', hcall, hmap, htaken⟩
        · simp only [hcall, Option.map_some]
          rw [if_pos fun heq => notAddress memory heq hmemory]
          exact ⟨_, _, _, rfl, rfl, hsame⟩
        · simp only [hcall, Option.map_some, ne_eq, not_true_eq_false, if_false]
          exact ⟨_, _, _, rfl, ⟨htaken, fun _ => rfl, fun h => by cases h⟩, h.taken hmap htaken⟩
      | maxAllocateType => exact ⟨_, _, _, rfl, rfl, hsame⟩

theorem Sound.freePages {s : PageState} (h : Sound s) {n memory : Nat} (hok : Allowed s (.freePages memory n)) :
    ∃ status address s', s.call (.freePages memory n) = some (status, address, s') ∧
      CallOk s (.freePages memory n) status address s' ∧ Sound s' := by
  obtain ⟨⟨hmemory, -⟩, hwithin⟩ := hok
  unfold PageState.call
  rcases freePages_spec h.map hmemory hwithin with hcall | ⟨l', hcall, hmap, hin, htaken⟩
  · simp only [hcall, Option.map_some]
    exact ⟨_, _, _, rfl, rfl, h⟩
  · simp only [hcall, Option.map_some]
    exact ⟨_, _, _, rfl, htaken, Sound.freed hmap h.inside hin htaken⟩

theorem alignedMemBase_lt (memBase : Nat) : alignedMemBase memBase < 2 ^ 64 :=
  Nat.lt_of_le_of_lt (Nat.sub_le _ _) (Nat.mod_lt _ (by decide))

theorem Sound.addMemoryRegion {s : PageState} (h : Sound s) {memBase memLength attributes : Nat}
    (hok : Allowed s (.addMemoryRegion memBase memLength attributes)) :
    ∃ status address s', s.call (.addMemoryRegion memBase memLength attributes) = some (status, address, s') ∧
      CallOk s (.addMemoryRegion memBase memLength attributes) status address s' ∧ Sound s' := by
  obtain ⟨-, hwithin⟩ := hok
  unfold PageState.call smmAddMemoryRegion
  by_cases hattributes : attributes &&& unusableAttributes ≠ 0
  · simp only [if_pos hattributes, Option.map_some]
    exact ⟨_, _, _, rfl, trivial, h⟩
  · simp only [if_neg hattributes]
    have hwithin := hwithin.resolve_left hattributes
    have hinside : ∀ x, Covered s.mSmmMemoryMap x → ∃ r ∈ (⟨memBase, memLength⟩ : Region) :: s.regions,
        r.base ≤ x ∧ x < r.base + r.length := fun x hx =>
      let ⟨r, hr, hrx⟩ := h.inside x hx
      ⟨r, List.mem_cons_of_mem _ hr, hrx⟩
    rcases freePages_spec (s := ⟨s.mSmmMemoryMap, ⟨memBase, memLength⟩ :: s.regions⟩) h.map (alignedMemBase_lt memBase)
        hwithin with hcall | ⟨l', hcall, hmap, hin, htaken⟩
    · simp only at hcall
      simp only [hcall, Option.map_some]
      exact ⟨_, _, _, rfl, trivial, h.map, hinside⟩
    · simp only at hcall
      simp only [hcall, Option.map_some]
      exact ⟨_, _, _, rfl, trivial, Sound.freed (s := ⟨s.mSmmMemoryMap, _⟩) hmap hinside hin htaken⟩

theorem Sound.call {s : PageState} (h : Sound s) {c : PageCall} (hok : Allowed s c) :
    ∃ status address s', s.call c = some (status, address, s') ∧ CallOk s c status address s' ∧ Sound s' := by
  cases c with
  | addMemoryRegion memBase memLength attributes => exact h.addMemoryRegion hok
  | allocatePages type memoryType n memory => exact h.allocatePages hok
  | freePages memory n => exact h.freePages hok

theorem Sound.start : Sound PageState.start := ⟨⟨fun _ hp => (nomatch hp), .nil⟩, fun _ ⟨_, hp, _⟩ => (nomatch hp)⟩

theorem pages_sound {calls : List PageCall} {s : PageState} (hrun : Run PageState.step Allowed .start calls s) :
    Sound s ∧ ∀ c, Allowed s c →
      ∃ status address s', s.call c = some (status, address, s') ∧ CallOk s c status address s' := by
  have hsound : Sound s := hrun.invariant Sound Sound.start fun s c s' h hok hs => by
    obtain ⟨_, _, s'', hcall, -, hsound⟩ := h.call hok
    rw [PageState.step, hcall] at hs
    exact Option.some.inj hs ▸ hsound
  refine ⟨hsound, fun c hok => ?_⟩
  obtain ⟨status, address, s', hcall, hcallOk, -⟩ := hsound.call hok
  exact ⟨status, address, s', hcall, hcallOk⟩

/-- A region that has a whole page may be added. -/
theorem within_of_page {s : PageState} (h : Sound s) {memBase memLength attributes : Nat}
    (hok : Proper s (.addMemoryRegion memBase memLength attributes))
    (hpage : (memBase + 4095) / 4096 * 4096 + 4096 ≤ memBase + memLength) :
    Within s (.addMemoryRegion memBase memLength attributes) := by
  obtain ⟨-, hlt, hfits, hapart⟩ := hok
  have hbase : alignedMemBase memBase = (memBase + 4095) / 4096 * 4096 := by
    have hsum : uintnAdd memBase (efiPageSize - 1) = memBase + 4095 := by
      unfold uintnAdd efiPageSize
      exact Nat.mod_eq_of_lt (by omega)
    rw [alignedMemBase, hsum, offPage, efiPageSize]
    omega
  have hpad : uintnSub ((memBase + 4095) / 4096 * 4096) memBase = (memBase + 4095) / 4096 * 4096 - memBase := by
    have := uintnSub_mod (x := (memBase + 4095) / 4096 * 4096) (b := memBase) (by omega) (by omega) (by omega)
    rwa [Nat.mod_eq_of_lt (by omega)] at this
  have hlength : uintnSub memLength ((memBase + 4095) / 4096 * 4096 - memBase) =
      memLength - ((memBase + 4095) / 4096 * 4096 - memBase) := by
    have := uintnSub_mod (x := memLength) (b := (memBase + 4095) / 4096 * 4096 - memBase) (by omega) (by omega) (by omega)
    rwa [Nat.mod_eq_of_lt hlt] at this
  have hpages : regionPages memBase memLength = (memLength - ((memBase + 4095) / 4096 * 4096 - memBase)) / 4096 := by
    rw [regionPages, hbase, hpad, hlength, truncateToPages, efiPageSize]
  have hin : InRegions (⟨memBase, memLength⟩ :: s.regions) (alignedMemBase memBase) (regionPages memBase memLength) := by
    intro x h1 h2
    rw [hbase] at h1 h2
    rw [hpages, efiPageSize] at h2
    refine ⟨_, List.mem_cons_self, ?_, ?_⟩ <;> dsimp only <;> omega
  refine .inr (.inr (.inr ⟨.inl ?_, ?_, fun p hp => ?_, hin⟩))
  · rw [hpages]
    omega
  · rw [hbase, hpages, efiPageSize]
    omega
  · by_contra hboth
    rw [hbase, hpages, efiPageSize] at hboth
    have hlimit := limit_eq p
    have hppages := (h.map.nodes p hp).pages
    -- an address of both is in a region that was there before
    obtain ⟨r, hr, h1, h2⟩ := h.inside (max p.base ((memBase + 4095) / 4096 * 4096))
      ⟨p, hp, Nat.le_max_left _ _, by rw [hi_eq]; omega⟩
    have := hapart r hr
    omega

/-- A region of 16 pages, two of its pages at the top, and one of them free again. -/
theorem pages_sound_sample :
    ∃ s, Run PageState.step Allowed .start
        [.addMemoryRegion 0xFFF800 0x10800 0, .allocatePages .allocateAnyPages 6 2 0, .freePages 0x100F000 1] s ∧
      s.mSmmMemoryMap = [⟨0x1000000, 14⟩, ⟨0x100F000, 1⟩] ∧ Sound s ∧ ∀ c, Allowed s c →
        ∃ status address s', s.call c = some (status, address, s') ∧ CallOk s c status address s' := by
  have hadd : Allowed .start (.addMemoryRegion 0xFFF800 0x10800 0) :=
    have hproper : Proper .start (.addMemoryRegion 0xFFF800 0x10800 0) :=
      ⟨by decide, by decide, by decide, fun _ hr => (nomatch hr)⟩
    ⟨hproper, within_of_page Sound.start hproper (by decide)⟩
  have hrun : Run PageState.step Allowed .start [.addMemoryRegion 0xFFF800 0x10800 0]
      ⟨[⟨0x1000000, 16⟩], [⟨0xFFF800, 0x10800⟩]⟩ := .single hadd (by decide +kernel)
  have hallocate : Allowed ⟨[⟨0x1000000, 16⟩], [⟨0xFFF800, 0x10800⟩]⟩ (.allocatePages .allocateAnyPages 6 2 0) := by
    refine ⟨⟨by decide, by decide⟩, .inr (.inr fun x hx => ?_)⟩
    obtain ⟨before, p, behind⟩ := x
    have hsplit : [(⟨0x1000000, 16⟩ : FreePageList)] = before ++ p :: behind := (splitLast_some hx).1
    have hp : p ∈ [(⟨0x1000000, 16⟩ : FreePageList)] := hsplit ▸ List.mem_append_right _ List.mem_cons_self
    rw [List.mem_singleton.mp hp]
    exact ⟨fun h => absurd h (by decide : (0x1000000 : Nat) ≠ 0), fun h => absurd h (by decide : (2 : Nat) ≠ 0)⟩
  have hrun := hrun.snoc hallocate (show _ = some ⟨[⟨0x1000000, 14⟩], [⟨0xFFF800, 0x10800⟩]⟩ by decide +kernel)
  have hfree : Allowed ⟨[⟨0x1000000, 14⟩], [⟨0xFFF800, 0x10800⟩]⟩ (.freePages 0x100F000 1) := by
    refine ⟨⟨by decide, by decide⟩, .inr (.inr ⟨.inl (by decide), by decide, fun p hp => .inl ?_, fun x h1 h2 => ?_⟩)⟩
    · rw [List.mem_singleton.mp hp, limit_eq]
      decide
    · rw [efiPageSize] at h2
      exact ⟨_, List.mem_cons_self, by dsimp only; omega, by dsimp only; omega⟩
  have hrun := hrun.snoc hfree
    (show _ = some ⟨[⟨0x1000000, 14⟩, ⟨0x100F000, 1⟩], [⟨0xFFF800, 0x10800⟩]⟩ by decide +kernel)
  exact ⟨_, hrun, rfl, pages_sound hrun⟩

/-- 2^52 pages have 2^64 bytes, which are taken for none. -/
theorem all_pages_allocated :
    ∃ s s', Run PageState.step Proper .start [.addMemoryRegion 0x1000000 0x10000 0] s ∧
      Proper s (.allocatePages .allocateAddress 6 (2 ^ 52) 0x1001000) ∧
      s.call (.allocatePages .allocateAddress 6 (2 ^ 52) 0x1001000) = some (.success, 0x1001000, s') ∧
      s'.mSmmMemoryMap = [⟨0x1000000, 2 ^ 64 - 2 ^ 52 + 1⟩, ⟨0x1001000, 15⟩] ∧
      ¬CallOk s (.allocatePages .allocateAddress 6 (2 ^ 52) 0x1001000) .success 0x1001000 s' ∧ ¬Sound s' := by
  refine ⟨⟨[⟨0x1000000, 16⟩], [⟨0x1000000, 0x10000⟩]⟩,
    ⟨[⟨0x1000000, 2 ^ 64 - 2 ^ 52 + 1⟩, ⟨0x1001000, 15⟩], [⟨0x1000000, 0x10000⟩]⟩,
    .single ⟨by decide, by decide, by decide, fun _ hr => (nomatch hr)⟩ (by decide +kernel), ⟨by decide, by decide⟩,
    by decide +kernel, rfl, fun ⟨htaken, _⟩ => ?_, fun hsound => ?_⟩
  · have hboth := (htaken.left 0x1001000).mp (by decide +kernel)
    exact hboth.2 (by decide +kernel)
  · exact absurd (hsound.map.nodes _ List.mem_cons_self).fits (by rw [limit_eq]; decide)

end Udk.Smm
