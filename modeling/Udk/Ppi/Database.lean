import Udk.Ppi.Service

/-! # The PPI database survives failures

The PPIs and the two kinds of notifies are three parts of one array. A call that fails for want of room leaves what it
has put into the array before it saw the end.
-/

namespace Udk.Ppi

variable {P Q : Int → Descriptor}

/-! ## Parts of the array -/

@[simp] theorem notifies_length (P : Int → Descriptor) (a b : Int) : (notifies P a b).length = (a - b).toNat := by
  simp [notifies]

theorem mem_notifies {a b : Int} {d : Descriptor} : d ∈ notifies P a b ↔ ∃ i, b < i ∧ i ≤ a ∧ P i = d := by
  simp only [notifies, List.mem_map, List.mem_range]
  constructor
  · rintro ⟨n, hn, rfl⟩
    exact ⟨a - n, by omega, by omega, rfl⟩
  · rintro ⟨i, h1, h2, rfl⟩
    exact ⟨(a - i).toNat, by omega, by congr 1; omega⟩

theorem mem_installs {a b k : Int} : k ∈ installs a b ↔ a ≤ k ∧ k < b := by
  simp only [installs, List.mem_map, List.mem_range]
  constructor
  · rintro ⟨n, hn, rfl⟩
    omega
  · rintro ⟨h1, h2⟩
    exact ⟨(k - a).toNat, by omega, by omega⟩

theorem notifies_nil {a b : Int} (h : a ≤ b) : notifies P a b = [] := by
  rw [notifies, Int.toNat_eq_zero.mpr (by omega), List.range_zero, List.map_nil]

theorem notifies_cons {a b : Int} (h : b < a) : notifies P a b = P a :: notifies P (a - 1) b := by
  obtain ⟨n, hn⟩ : ∃ n, (a - b).toNat = n + 1 := ⟨(a - b).toNat - 1, by omega⟩
  rw [notifies, notifies, hn, show (a - 1 - b).toNat = n by omega, List.range_succ_eq_map, List.map_cons, List.map_map]
  congr 1
  · congr 1; omega
  · refine List.map_congr_left fun i _ => ?_
    simp only [Function.comp]
    congr 1; omega

theorem notifies_append {a b c : Int} (hab : b ≤ a) (hbc : c ≤ b) :
    notifies P a c = notifies P a b ++ notifies P b c := by
  obtain ⟨n, hn⟩ : ∃ n, (a - b).toNat = n := ⟨_, rfl⟩
  induction n generalizing a with
  | zero =>
    obtain rfl : a = b := by omega
    rw [notifies_nil (Int.le_refl a), List.nil_append]
  | succ n ih =>
    rw [notifies_cons (show c < a by omega), notifies_cons (show b < a by omega), ih (by omega) (by omega),
      List.cons_append]

theorem notifies_congr {a b : Int} (h : ∀ i, b < i → i ≤ a → P i = Q i) : notifies P a b = notifies Q a b :=
  List.map_congr_left fun i hi => h _ (by have := List.mem_range.mp hi; omega) (by omega)

/-- Entries that came down by one. -/
theorem notifies_shift {a b : Int} (h : ∀ i, b < i → i ≤ a → Q (i - 1) = P i) :
    notifies Q (a - 1) (b - 1) = notifies P a b := by
  rw [notifies, notifies, show a - 1 - (b - 1) = a - b by omega]
  refine List.map_congr_left fun i hi => ?_
  have := List.mem_range.mp hi
  rw [← h (a - i) (by omega) (by omega)]
  congr 1; omega

/-! ## Putting dispatch notifies on the bottom -/

theorem shiftDown_apply (P : Int → Descriptor) (a : Int) (n : Nat) (i : Int) :
    shiftDown P a n i = if a ≤ i ∧ i < a + n then P (i + 1) else P i := by
  induction n generalizing P a with
  | zero => rw [shiftDown, if_neg (by omega)]
  | succ n ih =>
    rw [shiftDown, ih]
    rcases Int.lt_trichotomy i a with hi | rfl | hi
    · rw [if_neg (by omega), if_neg (by omega), Function.update_of_ne (by omega)]
    · rw [if_neg (by omega), if_pos (by omega), Function.update_self]
    · by_cases hin : i < a + 1 + n
      · rw [if_pos (by omega), if_pos (by omega), Function.update_of_ne (by omega)]
      · rw [if_neg (by omega), if_neg (by omega), Function.update_of_ne (by omega)]

/-- What the loop makes of the notifies from `i` down. -/
structure ToBottom (p r : PpiData) (i : Int) : Prop where
  ppiListEnd : r.ppiListEnd = p.ppiListEnd
  notifyListEnd : r.notifyListEnd = p.notifyListEnd
  lastInstall : r.lastDispatchedInstall = p.lastDispatchedInstall
  lastNotify : r.lastDispatchedNotify = p.lastDispatchedNotify
  between : r.notifyListEnd ≤ r.dispatchListEnd ∧ r.dispatchListEnd ≤ p.dispatchListEnd
  frame : ∀ j, j ≤ p.notifyListEnd ∨ p.dispatchListEnd < j → r.ppiListPtrs j = p.ppiListPtrs j
  bottom : notifies r.ppiListPtrs p.dispatchListEnd r.dispatchListEnd =
    (notifies p.ppiListPtrs i p.notifyListEnd).filter (·.has descriptorNotifyDispatch)
  callbacks : callbackNotifies r = notifies p.ppiListPtrs p.dispatchListEnd i ++
    (notifies p.ppiListPtrs i p.notifyListEnd).filter (¬·.has descriptorNotifyDispatch)

theorem dispatchToBottom_spec (p : PpiData) (i : Int) (n : Nat) (hn : i = p.notifyListEnd + n)
    (hi : i ≤ p.dispatchListEnd) : ToBottom p (dispatchToBottom p i n) i := by
  induction n generalizing p i with
  | zero =>
    obtain rfl : i = p.notifyListEnd := by omega
    have hnil : notifies p.ppiListPtrs p.notifyListEnd p.notifyListEnd = [] := notifies_nil (Int.le_refl _)
    refine ⟨rfl, rfl, rfl, rfl, ⟨hi, Int.le_refl _⟩, fun _ _ => rfl, ?_, ?_⟩
    · rw [hnil]
      exact notifies_nil (Int.le_refl _)
    · rw [hnil, List.filter_nil, List.append_nil]
      rfl
  | succ n ih =>
    have hlt : p.notifyListEnd < i := by omega
    rw [dispatchToBottom]
    by_cases hd : (p.ppiListPtrs i).has descriptorNotifyDispatch = true
    · rw [if_pos hd]
      have habove : i + ((p.dispatchListEnd - i).toNat : Int) = p.dispatchListEnd := by omega
      simp only [habove]
      generalize hP : Function.update (shiftDown p.ppiListPtrs i (p.dispatchListEnd - i).toNat) p.dispatchListEnd
        (p.ppiListPtrs i) = P'
      have hbottom : P' p.dispatchListEnd = p.ppiListPtrs i := by rw [← hP, Function.update_self]
      have hmoved : ∀ j, i < j → j ≤ p.dispatchListEnd → P' (j - 1) = p.ppiListPtrs j := by
        intro j h1 h2
        rw [← hP, Function.update_of_ne (by omega), shiftDown_apply, if_pos (by omega)]
        congr 1; omega
      have hkept : ∀ j, j < i ∨ p.dispatchListEnd < j → P' j = p.ppiListPtrs j := by
        intro j hj
        rw [← hP, Function.update_of_ne (by omega), shiftDown_apply, if_neg (by omega)]
      have hrest : notifies P' (i - 1) p.notifyListEnd = notifies p.ppiListPtrs (i - 1) p.notifyListEnd :=
        notifies_congr fun j _ h2 => hkept j (.inl (by omega))
      have hspec := ih { p with ppiListPtrs := P', dispatchListEnd := p.dispatchListEnd - 1 } (i - 1) (by simp only; omega)
        (by simp only; omega)
      obtain ⟨h1, h2, h3, h4, h5, h6, h7, h8⟩ := hspec
      refine ⟨h1, h2, h3, h4, ⟨h5.1, by have := h5.2; simp only at this; omega⟩, ?_, ?_, ?_⟩
      · intro j hj
        rw [h6 j (by simp only; omega)]
        exact hkept j (by omega)
      · have hle := h5.2
        simp only at hle
        rw [notifies_cons (by omega), h7, h6 _ (.inr (by simp only; omega)), hrest, notifies_cons hlt]
        simp only [hbottom]
        rw [List.filter_cons, if_pos hd]
      · rw [h8]
        simp only
        rw [notifies_shift hmoved, hrest, notifies_cons hlt, List.filter_cons, if_neg (by simpa using hd)]
    · rw [if_neg hd]
      obtain ⟨h1, h2, h3, h4, h5, h6, h7, h8⟩ := ih p (i - 1) (by omega) (by omega)
      refine ⟨h1, h2, h3, h4, h5, h6, ?_, ?_⟩
      · rw [h7, notifies_cons hlt, List.filter_cons, if_neg hd]
      · rw [h8, notifies_cons hlt, List.filter_cons, if_pos (by simpa using hd),
          notifies_append (show i ≤ p.dispatchListEnd by omega) (show i - 1 ≤ i by omega),
          notifies_cons (show i - 1 < i by omega), notifies_nil (Int.le_refl _), List.append_assoc]
        rfl

/-! ## New entries -/

/-- `l` from index `a` up. -/
def place (P : Int → Descriptor) (a : Int) : List Descriptor → Int → Descriptor
  | [] => P
  | d :: l => place (Function.update P a d) (a + 1) l

/-- `l` from index `a` down. -/
def placeDown (P : Int → Descriptor) (a : Int) : List Descriptor → Int → Descriptor
  | [] => P
  | d :: l => placeDown (Function.update P a d) (a - 1) l

theorem place_outside {a i : Int} {l : List Descriptor} (h : i < a ∨ a + l.length ≤ i) : place P a l i = P i := by
  induction l generalizing P a with
  | nil => rfl
  | cons d l ih =>
    rw [List.length_cons] at h
    rw [place, ih (by omega), Function.update_of_ne (by omega)]

theorem placeDown_outside {a i : Int} {l : List Descriptor} (h : a < i ∨ i ≤ a - l.length) :
    placeDown P a l i = P i := by
  induction l generalizing P a with
  | nil => rfl
  | cons d l ih =>
    rw [List.length_cons] at h
    rw [placeDown, ih (by omega), Function.update_of_ne (by omega)]

theorem installs_cons {a b : Int} (h : a < b) : installs a b = a :: installs (a + 1) b := by
  obtain ⟨n, hn⟩ : ∃ n, (b - a).toNat = n + 1 := ⟨(b - a).toNat - 1, by omega⟩
  rw [installs, installs, hn, show (b - (a + 1)).toNat = n by omega, List.range_succ_eq_map, List.map_cons, List.map_map]
  congr 1
  · omega
  · refine List.map_congr_left fun i _ => ?_
    simp only [Function.comp]
    omega

theorem installs_nil {a b : Int} (h : b ≤ a) : installs a b = [] := by
  rw [installs, Int.toNat_eq_zero.mpr (by omega), List.range_zero, List.map_nil]

theorem installs_append {a b c : Int} (hab : a ≤ b) (hbc : b ≤ c) : installs a c = installs a b ++ installs b c := by
  obtain ⟨n, hn⟩ : ∃ n, (b - a).toNat = n := ⟨_, rfl⟩
  induction n generalizing a with
  | zero =>
    obtain rfl : a = b := by omega
    rw [installs_nil (Int.le_refl a), List.nil_append]
  | succ n ih =>
    rw [installs_cons (show a < c by omega), installs_cons (show a < b by omega), ih (by omega) (by omega),
      List.cons_append]

theorem map_place (a : Int) (l : List Descriptor) : (installs a (a + l.length)).map (place P a l) = l := by
  induction l generalizing P a with
  | nil => rw [installs_nil (by simp), List.map_nil]
  | cons d l ih =>
    have hlast : a + ((d :: l).length : Int) = a + 1 + l.length := by rw [List.length_cons]; omega
    rw [hlast, installs_cons (by omega), List.map_cons, place, ih, place_outside (.inl (by omega)),
      Function.update_self]

theorem notifies_placeDown (a : Int) (l : List Descriptor) : notifies (placeDown P a l) a (a - l.length) = l := by
  induction l generalizing P a with
  | nil => exact notifies_nil (by simp)
  | cons d l ih =>
    have hlast : a - ((d :: l).length : Int) = a - 1 - l.length := by rw [List.length_cons]; omega
    rw [hlast, notifies_cons (by omega), placeDown, ih, placeDown_outside (.inl (by omega)), Function.update_self]

/-! ## The loops -/

/-- The database with `l` behind the PPIs. -/
def PpiData.installed (p : PpiData) (l : List Descriptor) : PpiData :=
  { p with ppiListPtrs := place p.ppiListPtrs p.ppiListEnd l, ppiListEnd := p.ppiListEnd + l.length }

/-- The database with `l` below the notifies. -/
def PpiData.registered (p : PpiData) (l : List Descriptor) : PpiData :=
  { p with ppiListPtrs := placeDown p.ppiListPtrs p.notifyListEnd l, notifyListEnd := p.notifyListEnd - l.length }

/-- The entries between the PPIs and the notifies. -/
def PpiData.free (p : PpiData) : Nat := (p.notifyListEnd + 1 - p.ppiListEnd).toNat

/-- How a loop over a list ends that has put `l` into the array, with `free` entries before. -/
inductive Ended (good : Descriptor → Bool) (free : Nat) (list l : List Descriptor) : EfiStatus → Prop
  | success (hl : l = listed list) (hne : l ≠ []) (hle : l.length ≤ free) : Ended good free list l .success
  | full (hl : l = list.take free) (hlen : l.length = free)
      (hgood : ∀ d ∈ l, good d = true ∧ d.has descriptorTerminateList = false) : Ended good free list l .outOfResources
  | invalid (hlt : l.length < free) (hbad : ∃ d, l ++ [d] <+: list ∧ good d = false) :
      Ended good free list l .invalidParameter

theorem Ended.cons {good : Descriptor → Bool} {free : Nat} {list l : List Descriptor} {status : EfiStatus}
    {d : Descriptor} (h : Ended good free list l status) (hgood : good d = true)
    (hterm : d.has descriptorTerminateList = false) : Ended good (free + 1) (d :: list) (d :: l) status := by
  cases h with
  | success hl hne hle =>
    refine .success ?_ (List.cons_ne_nil _ _) (by rw [List.length_cons]; omega)
    rw [listed, if_neg (by simpa using hterm), hl]
  | full hl hlen hall =>
    refine .full (by rw [List.take_succ_cons, ← hl]) (by rw [List.length_cons, hlen]) fun x hx => ?_
    rcases List.mem_cons.mp hx with rfl | hx
    · exact ⟨hgood, hterm⟩
    · exact hall x hx
  | invalid hlt hbad =>
    obtain ⟨x, hpre, hx⟩ := hbad
    refine .invalid (by rw [List.length_cons]; omega) ⟨x, ?_, hx⟩
    rw [List.cons_append]
    exact (List.prefix_cons_inj d).mpr hpre

theorem installed_cons (p : PpiData) (d : Descriptor) (l : List Descriptor) :
    ({ p with ppiListPtrs := Function.update p.ppiListPtrs p.ppiListEnd d, ppiListEnd := p.ppiListEnd + 1 } :
      PpiData).installed l = p.installed (d :: l) := by
  simp only [PpiData.installed, place, List.length_cons, Int.natCast_add, Int.natCast_one]
  congr 1
  omega

theorem registered_cons (p : PpiData) (d : Descriptor) (l : List Descriptor) :
    ({ p with ppiListPtrs := Function.update p.ppiListPtrs p.notifyListEnd d, notifyListEnd := p.notifyListEnd - 1 } :
      PpiData).registered l = p.registered (d :: l) := by
  simp only [PpiData.registered, placeDown, List.length_cons, Int.natCast_add, Int.natCast_one]
  congr 1
  omega

theorem installLoop_spec {last : Int} {p p' : PpiData} {list : List Descriptor} {status : EfiStatus}
    (hroom : p.ppiListEnd ≤ p.notifyListEnd + 1) (h : installLoop last p p.ppiListEnd list = some (status, p')) :
    ∃ l, Ended (·.has descriptorPpi) p.free list l status ∧
      p' = if status = .invalidParameter then { p.installed l with ppiListEnd := last } else p.installed l := by
  induction list generalizing p with
  | nil =>
    rw [installLoop] at h
    split at h
    · rename_i hfull
      obtain ⟨rfl, rfl⟩ := Prod.mk.inj (Option.some.inj h)
      have hfree : p.free = 0 := by unfold PpiData.free; omega
      exact ⟨[], .full (by rw [hfree]; rfl) (by rw [hfree]; rfl) (by simp), by simp [PpiData.installed, place]⟩
    · cases h
  | cons d list ih =>
    rw [installLoop] at h
    split at h
    · rename_i hfull
      obtain ⟨rfl, rfl⟩ := Prod.mk.inj (Option.some.inj h)
      have hfree : p.free = 0 := by unfold PpiData.free; omega
      exact ⟨[], .full (by rw [hfree]; rfl) (by rw [hfree]; rfl) (by simp), by simp [PpiData.installed, place]⟩
    · rename_i hfull
      have hpos : 0 < p.free := by unfold PpiData.free; omega
      split at h
      · rename_i hbad
        obtain ⟨rfl, rfl⟩ := Prod.mk.inj (Option.some.inj h)
        refine ⟨[], .invalid hpos ⟨d, by simp, by simpa using hbad⟩, ?_⟩
        simp [PpiData.installed, place]
      · rename_i hgood
        simp only at h
        split at h
        · rename_i hterm
          obtain ⟨rfl, rfl⟩ := Prod.mk.inj (Option.some.inj h)
          refine ⟨[d], .success (by rw [listed, if_pos hterm]) (List.cons_ne_nil _ _) hpos, ?_⟩
          rw [if_neg (by decide)]
          rfl
        · rename_i hterm
          obtain ⟨l, hend, rfl⟩ := ih (by simp only; omega) h
          refine ⟨d :: l, ?_, ?_⟩
          · have hfree : p.free = (PpiData.free { p with
                ppiListPtrs := Function.update p.ppiListPtrs p.ppiListEnd d, ppiListEnd := p.ppiListEnd + 1 }) + 1 := by
              simp only [PpiData.free]
              omega
            rw [hfree]
            exact hend.cons (by simpa using hgood) (by simpa using hterm)
          · rw [installed_cons]

theorem notifyLoop_spec {last : Int} {p p' : PpiData} {list : List Descriptor} {status : EfiStatus} {count count' : Nat}
    (hroom : p.ppiListEnd ≤ p.notifyListEnd + 1)
    (h : notifyLoop last p p.notifyListEnd count list = some (status, p', count')) :
    ∃ l, Ended (·.has descriptorNotifyTypes) p.free list l status ∧
      p' = (if status = .invalidParameter then { p.registered l with notifyListEnd := last } else p.registered l) ∧
      count' = count + (l.filter (·.has descriptorNotifyDispatch)).length := by
  induction list generalizing p count with
  | nil =>
    rw [notifyLoop] at h
    split at h
    · rename_i hfull
      obtain ⟨rfl, h2⟩ := Prod.mk.inj (Option.some.inj h)
      obtain ⟨rfl, rfl⟩ := Prod.mk.inj h2
      have hfree : p.free = 0 := by unfold PpiData.free; omega
      exact ⟨[], .full (by rw [hfree]; rfl) (by rw [hfree]; rfl) (by simp), by simp [PpiData.registered, placeDown], rfl⟩
    · cases h
  | cons d list ih =>
    rw [notifyLoop] at h
    split at h
    · rename_i hfull
      obtain ⟨rfl, h2⟩ := Prod.mk.inj (Option.some.inj h)
      obtain ⟨rfl, rfl⟩ := Prod.mk.inj h2
      have hfree : p.free = 0 := by unfold PpiData.free; omega
      exact ⟨[], .full (by rw [hfree]; rfl) (by rw [hfree]; rfl) (by simp), by simp [PpiData.registered, placeDown], rfl⟩
    · rename_i hfull
      have hpos : 0 < p.free := by unfold PpiData.free; omega
      split at h
      · rename_i hbad
        obtain ⟨rfl, h2⟩ := Prod.mk.inj (Option.some.inj h)
        obtain ⟨rfl, rfl⟩ := Prod.mk.inj h2
        refine ⟨[], .invalid hpos ⟨d, by simp, by simpa using hbad⟩, ?_, rfl⟩
        simp [PpiData.registered, placeDown]
      · rename_i hgood
        simp only at h
        have hcount : (if d.has descriptorNotifyDispatch then count + 1 else count) =
            count + ([d].filter (·.has descriptorNotifyDispatch)).length := by
          by_cases hd : d.has descriptorNotifyDispatch = true <;> simp [hd]
        split at h
        · rename_i hterm
          obtain ⟨rfl, h2⟩ := Prod.mk.inj (Option.some.inj h)
          obtain ⟨rfl, rfl⟩ := Prod.mk.inj h2
          refine ⟨[d], .success (by rw [listed, if_pos hterm]) (List.cons_ne_nil _ _) hpos, ?_, hcount⟩
          rw [if_neg (by decide)]
          rfl
        · rename_i hterm
          obtain ⟨l, hend, rfl, rfl⟩ := ih (by simp only; omega) h
          refine ⟨d :: l, ?_, ?_, ?_⟩
          · have hfree : p.free = (PpiData.free { p with
                ppiListPtrs := Function.update p.ppiListPtrs p.notifyListEnd d
                notifyListEnd := p.notifyListEnd - 1 }) + 1 := by
              simp only [PpiData.free]
              omega
            rw [hfree]
            exact hend.cons (by simpa using hgood) (by simpa using hterm)
          · rw [registered_cons]
          · rw [hcount, show d :: l = [d] ++ l from rfl, List.filter_append, List.length_append, Nat.add_assoc]

end Udk.Ppi
