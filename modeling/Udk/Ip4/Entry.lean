import Udk.Ip4.Fragments

/-! # The entry of one datagram -/

namespace Udk.Ip4

open Ranges

/-- A part of a datagram, as `Ip4AccpetFrame` hands it over. -/
structure IsFragment (whole : List UInt8) (packet : Packet) : Prop where
  ok : PacketOk whole packet
  last : packet.ip.lastFragment ↔ packet.info.stop = whole.length
  fragmented : ¬packet.ip.lastFragment ∨ packet.info.start ≠ 0

/-- The packet is none of those that the list of fragments is not ready for. -/
structure Harmless (fragments : List Packet) (packet : Packet) : Prop where
  /-- At the end of the list it lies behind all that is there. -/
  atEnd : (∀ q ∈ fragments, q.info.start ≤ packet.info.start) → ∀ q ∈ fragments, q.info.stop ≤ packet.info.start
  /-- It does not reach into a fragment behind it, unless all that it has before that one is there. -/
  overNext : ∀ q ∈ fragments, packet.info.start < q.info.start → q.info.start < packet.info.stop →
    packet.info.stop < q.info.stop → ∃ q' ∈ fragments, q'.info.start ≤ packet.info.start ∧ q'.info.stop = q.info.start
  /-- At offset zero there is no empty fragment yet. -/
  emptyFirst : packet.info.start = 0 → ∀ q ∈ fragments, q.info.start = 0 → 0 < q.info.stop

/-- What the entry has gathered of the datagram. -/
structure Gathered (whole : List UInt8) (received : List Packet) (entry : AssembleEntry) : Prop where
  sorted : Sorted entry.fragments
  ok : ∀ p ∈ entry.fragments, PacketOk whole p
  curLen : entry.curLen = size entry.fragments
  covered : ∀ i, Covered entry.fragments i ↔ Covered received i
  last : ∀ p ∈ entry.fragments, p.info.stop = whole.length → entry.totalLen = whole.length
  total : entry.totalLen = 0 ∨ entry.totalLen = whole.length
  first : ∀ p ∈ entry.fragments, p.info.start = 0 → entry.head = some p.ip ∧ entry.info = some p.info
  noFirst : (∀ p ∈ entry.fragments, p.info.start ≠ 0) → entry.head = none
  identity : ∀ p ∈ entry.fragments, p.ip.toIdentity = entry.identity

/-- The datagram is not complete yet. -/
structure EntryOk (whole : List UInt8) (received : List Packet) (entry : AssembleEntry) : Prop
    extends Gathered whole received entry where
  waiting : entry.totalLen ≠ 0 → entry.curLen < entry.totalLen

section
variable {whole : List UInt8} {received : List Packet} {entry : AssembleEntry} {packet : Packet}

theorem IsFragment.pos (h : IsFragment whole packet) : 0 < whole.length := by
  have h1 := h.ok.within
  have h2 := h.ok.start
  have h3 := h.ok.le
  have h4 := h.last
  rcases h.fragmented with hm | hs
  · have : packet.info.stop ≠ whole.length := fun he => hm (h4.mpr he)
    omega
  · omega

theorem createAssembleEntry_ok (whole : List UInt8) (identity : Identity) :
    EntryOk whole [] (ip4CreateAssembleEntry identity) :=
  { sorted := List.Pairwise.nil
    ok := nofun
    curLen := rfl
    covered := fun _ => Iff.rfl
    last := nofun
    total := .inl rfl
    first := nofun
    noFirst := fun _ => rfl
    identity := nofun
    waiting := fun h => absurd rfl h }

theorem covered_concat (received : List Packet) (packet : Packet) (i : Nat) :
    Covered (received ++ [packet]) i ↔ Covered received i ∨ (lo packet ≤ i ∧ i < hi packet) := by
  rw [covered_append, covered_cons]
  simp

/-! ## Complete datagrams -/

theorem Gathered.size_le (h : Gathered whole received entry) : size entry.fragments ≤ whole.length := by
  have := Ranges.size_le h.sorted (within_of_ok h.ok) (Nat.zero_le _)
  omega

/-- When all is received, the length is known and reached. -/
theorem Gathered.complete (h : Gathered whole received entry) (hpos : 0 < whole.length)
    (hall : ∀ i < whole.length, Covered received i) :
    entry.totalLen = whole.length ∧ entry.curLen = whole.length := by
  have hcov : ∀ i < whole.length, Covered entry.fragments i := fun i hi => (h.covered i).mpr (hall i hi)
  obtain ⟨q, hq, h1, h2⟩ := hcov (whole.length - 1) (by omega)
  have hhi := hi_eq (h.ok q hq)
  have hwithin := (h.ok q hq).within
  refine ⟨h.last q hq (by omega), ?_⟩
  rw [h.curLen, size_eq_of_covered h.sorted (within_of_ok h.ok) hcov]

theorem EntryOk.not_covered (h : EntryOk whole received entry) (hpos : 0 < whole.length) :
    ¬∀ i < whole.length, Covered received i := by
  intro hall
  obtain ⟨h1, h2⟩ := h.complete hpos hall
  have := h.waiting (by omega)
  omega

/-- The last fragment of a complete list ends the datagram. -/
theorem Gathered.getLast (h : Gathered whole received entry) (hsize : whole.length ≤ size entry.fragments)
    {node : Packet} (hlast : entry.fragments.getLast? = some node) : node.info.stop = whole.length := by
  obtain ⟨l, hl⟩ := mem_of_getLast? hlast
  have hnode := h.ok node (by rw [hl]; simp)
  have hs := h.sorted
  rw [hl] at hs
  have hw : Within 0 (hi node) entry.fragments := by
    intro q hq
    obtain ⟨h1, -⟩ := (h.ok q hq).within_whole
    refine ⟨Nat.zero_le _, h1, ?_⟩
    rw [hl] at hq
    rcases List.mem_append.mp hq with hq | hq
    · have h2 := (List.pairwise_append.mp hs).2.2 q hq node (List.mem_singleton_self _)
      have h3 := hnode.within_whole.1
      omega
    · obtain rfl := List.mem_singleton.mp hq
      exact Nat.le_refl _
  have h1 := Ranges.size_le h.sorted hw (Nat.zero_le _)
  have h2 := hi_eq hnode
  have h3 := hnode.within
  omega

/-- A complete list has the first fragment. -/
theorem Gathered.exists_first (h : Gathered whole received entry) (hpos : 0 < whole.length)
    (hsize : whole.length ≤ size entry.fragments) : ∃ p ∈ entry.fragments, p.info.start = 0 := by
  by_contra hnone
  have hw : Within 1 whole.length entry.fragments := by
    intro q hq
    obtain ⟨h1, h2⟩ := (h.ok q hq).within_whole
    have h3 : q.info.start ≠ 0 := fun h0 => hnone ⟨q, hq, h0⟩
    have h4 := lo_eq (h.ok q hq)
    exact ⟨by omega, h1, h2⟩
  have := Ranges.size_le h.sorted hw hpos
  omega

/-- What comes of the packet for its entry. -/
structure AssembleOk (whole : List UInt8) (identity : Identity) (received : List Packet) (wraps : Bool)
    (r : Assembled) : Prop where
  asserts : r.asserts = true
  entry : ∀ e, r.entry = some e → e.identity = identity ∧ EntryOk whole received e
  returned : ∀ p, r.returned = some p → p.bytes = whole ∧ ∃ head, p.ip = some head ∧ head.toIdentity = identity
  complete : wraps = true → (∀ i < whole.length, Covered received i) → r.returned.isSome

theorem deliver_spec (h : Gathered whole received entry) (hpos : 0 < whole.length) (hne : entry.fragments ≠ [])
    (wraps : Bool) :
    ∃ r, deliver wraps entry true = some r ∧ AssembleOk whole entry.identity received wraps r := by
  unfold deliver
  split
  · rename_i hfull
    have htotal : entry.totalLen = whole.length := h.total.resolve_left hfull.1
    have hsize : whole.length ≤ size entry.fragments := by
      have := h.curLen
      omega
    have hbytes : entry.fragments.flatMap Packet.bytes = whole :=
      flatMap_eq h.sorted (within_of_ok h.ok) (fun p hp => (h.ok p hp).piece) hsize
    obtain ⟨first, hmem, hfirst⟩ := h.exists_first hpos hsize
    obtain ⟨hhead, hinfo⟩ := h.first first hmem hfirst
    split
    · rename_i hnil
      exact absurd (List.getLast?_eq_none_iff.mp hnil) hne
    · rename_i node hlast
      rw [if_neg (by rw [h.getLast hsize hlast, htotal]; simp)]
      cases wraps with
      | true =>
        have hwhole : ¬whole = [] := List.ne_nil_of_length_pos hpos
        refine ⟨⟨none, some ⟨entry.head, first.info, whole⟩, true⟩, ?_, rfl, nofun, fun p hp => ?_, fun _ _ => rfl⟩
        · simp [hbytes, hinfo, hwhole]
        · obtain rfl := Option.some.inj hp
          exact ⟨rfl, first.ip, hhead, h.identity first hmem⟩
      | false => exact ⟨_, rfl, rfl, nofun, nofun, nofun⟩
  · rename_i hfull
    refine ⟨_, rfl, rfl, fun e he => ?_, nofun, fun _ hall => ?_⟩
    · obtain rfl := Option.some.inj he
      exact ⟨rfl, { h with waiting := fun hne => by omega }⟩
    · obtain ⟨h1, h2⟩ := h.complete hpos hall
      omega

/-! ## A packet comes -/

/-- The fragments of the entry around the packet, with those that it contains. -/
structure Around (entry : AssembleEntry) (packet : Packet) (before gone rest : List Packet) : Prop where
  fragments : entry.fragments = before ++ (gone ++ rest)
  before : ∀ q ∈ before, q.info.start ≤ packet.info.start
  behind : ∀ q ∈ gone ++ rest, packet.info.start < q.info.start

namespace Around
variable {before gone rest : List Packet}

theorem mem (h : Around entry packet before gone rest) {q : Packet} (hq : q ∈ before ++ rest) : q ∈ entry.fragments := by
  rw [h.fragments]
  simp only [List.mem_append] at hq ⊢
  exact hq.imp_right .inr

theorem sorted (h : Around entry packet before gone rest) (hs : Sorted entry.fragments) : Sorted (before ++ rest) := by
  rw [h.fragments] at hs
  exact hs.sublist ((List.sublist_append_right gone rest).append_left before)

theorem pos_of_behind (h : Around entry packet before gone rest) (hp : PacketOk whole packet) :
    ∀ q ∈ gone ++ rest, q.info.start ≠ 0 := by
  intro q hq
  have h1 := h.behind q hq
  have h2 := hp.start
  omega

end Around

/-- The packet brings nothing that is not there; the fragments that go are empty. -/
theorem drop_ok {before gone rest : List Packet} (h : EntryOk whole received entry)
    (ha : Around entry packet before gone rest) (hp : PacketOk whole packet) (hgone : ∀ q ∈ gone, hi q ≤ lo q)
    (hcov : ∀ i, lo packet ≤ i → i < hi packet → Covered received i) :
    EntryOk whole (received ++ [packet])
      { entry with fragments := before ++ rest, curLen := entry.curLen - size gone } := by
  have hsize : size gone = 0 := by
    rw [size, List.sum_eq_zero]
    intro n hn
    obtain ⟨q, hq, rfl⟩ := List.mem_map.mp hn
    exact Nat.sub_eq_zero_of_le (hgone q hq)
  have hnone : ∀ i, ¬Covered gone i := by
    rintro i ⟨q, hq, h1, h2⟩
    have := hgone q hq
    omega
  have hlen := h.curLen
  rw [ha.fragments] at hlen
  simp only [size_append] at hlen
  refine
    { sorted := ha.sorted h.sorted
      ok := fun p hp => h.ok p (ha.mem hp)
      curLen := ?_
      covered := fun i => ?_
      last := fun p hp => h.last p (ha.mem hp)
      total := h.total
      first := fun p hp => h.first p (ha.mem hp)
      noFirst := fun hall => h.noFirst fun p hmem => ?_
      identity := fun p hp => h.identity p (ha.mem hp)
      waiting := fun hne => ?_ }
  · simp only [size_append]
    omega
  · rw [covered_concat, ← h.covered i, ha.fragments]
    simp only [covered_append]
    have h1 := hnone i
    have h2 := hcov i
    have h3 := h.covered i
    rw [ha.fragments] at h3
    simp only [covered_append] at h3
    tauto
  · rw [ha.fragments] at hmem
    rcases List.mem_append.mp hmem with hmem | hmem
    · exact hall p (List.mem_append_left _ hmem)
    · exact ha.pos_of_behind hp p hmem
  · have := h.waiting hne
    simp only [hsize]
    omega

/-- The packet is put in with what is left of it. -/
theorem putIn_gathered {before gone rest : List Packet} {packet' : Packet} (h : EntryOk whole received entry)
    (ha : Around entry packet before gone rest) (hf : IsFragment whole packet)
    (hid : packet.ip.toIdentity = entry.identity) (hl : LeftOver whole packet packet' before)
    (hgone : ∀ q ∈ gone, packet'.info.start ≤ q.info.start ∧ q.info.stop ≤ packet'.info.stop)
    (hrest : ∀ q ∈ rest, packet'.info.stop ≤ q.info.start)
    (hempty : packet.info.start = 0 → ∀ q ∈ entry.fragments, q.info.start = 0 → 0 < q.info.stop) :
    (account { entry with fragments := before ++ packet' :: rest, curLen := entry.curLen - size gone } packet').2 = true ∧
      Gathered whole (received ++ [packet])
        (account { entry with fragments := before ++ packet' :: rest, curLen := entry.curLen - size gone } packet').1 := by
  have hok : ∀ q ∈ before ++ (gone ++ rest), PacketOk whole q := by
    rw [← ha.fragments]
    exact h.ok
  have hlo := lo_eq hl.ok
  have hhi := hi_eq hl.ok
  have hput : PutIn before gone rest packet' := by
    refine ⟨fun q hq => ?_, fun q hq => ?_, fun q hq => ?_⟩
    · have h1 := hl.apart q hq
      have h2 := hi_eq (hok q (by simp [hq]))
      omega
    · have h1 := hgone q hq
      have h2 := hi_eq (hok q (by simp [hq]))
      have h3 := lo_eq (hok q (by simp [hq]))
      omega
    · have h1 := hrest q hq
      have h2 := lo_eq (hok q (by simp [hq]))
      omega
  -- A packet with a first byte finds none before it.
  have hnofirst : packet'.info.start = 0 → ∀ q ∈ entry.fragments, q.info.start ≠ 0 := by
    intro h0 q hq hq0
    have hzero : packet.info.start = 0 := by
      rcases hl.covered with hsame | ⟨r, -, h1, h2, h3⟩
      · omega
      · have := hf.ok.start
        omega
    have hpos := hempty hzero q hq hq0
    rw [ha.fragments] at hq
    rcases List.mem_append.mp hq with hq | hq
    · have := hl.apart q hq
      omega
    · exact ha.pos_of_behind hf.ok q hq hq0
  have hmem : ∀ q ∈ before ++ packet' :: rest, q = packet' ∨ q ∈ entry.fragments := by
    intro q hq
    rcases List.mem_append.mp hq with hq | hq
    · exact .inr (ha.mem (List.mem_append_left _ hq))
    · exact (List.mem_cons.mp hq).imp_right fun hq => ha.mem (List.mem_append_right _ hq)
  have hstop := hl.stop
  have hip := hl.ip
  refine ⟨?_,
    { sorted := hput.sorted (by rw [← ha.fragments]; exact h.sorted)
      ok := fun q hq => ?_
      curLen := ?_
      covered := fun i => ?_
      last := fun q hq hend => ?_
      total := ?_
      first := fun q hq hq0 => ?_
      noFirst := fun hall => ?_
      identity := fun q hq => ?_ }⟩
  · simp only [account, Bool.or_eq_true, Bool.not_eq_true', decide_eq_false_iff_not, Option.isNone_iff_eq_none]
    by_cases h0 : packet'.info.start = 0
    · exact .inr (h.noFirst (hnofirst h0))
    · exact .inl h0
  · rcases hmem q hq with rfl | hq
    · exact hl.ok
    · exact h.ok q hq
  · have h1 := length_eq hl.ok
    have h2 := h.curLen
    have h3 := @PutIn.size _ _ before gone rest packet'
    rw [← ha.fragments] at h3
    simp only [account]
    omega
  · simp only [account]
    rw [covered_concat, ← h.covered i, hput.covered, ← ha.fragments]
    have h1 := lo_eq hf.ok
    have h2 := hi_eq hf.ok
    rcases hl.covered with hsame | ⟨r, hr, h3, h4, h5⟩
    · rw [show lo packet' = lo packet by omega, show hi packet' = hi packet by omega]
    · have hrange : lo packet ≤ i → i < lo packet' → Covered entry.fragments i := by
        intro h6 h7
        have h8 := lo_eq (hok r (by simp [hr]))
        have h9 := hi_eq (hok r (by simp [hr]))
        exact ⟨r, ha.mem (List.mem_append_left _ hr), by omega, by omega⟩
      constructor
      · rintro (hc | ⟨h6, h7⟩)
        · exact .inl hc
        · exact .inr ⟨by omega, by omega⟩
      · rintro (hc | ⟨h6, h7⟩)
        · exact .inl hc
        · rcases Nat.lt_or_ge i (lo packet') with h8 | h8
          · exact .inl (hrange h6 h8)
          · exact .inr ⟨h8, by omega⟩
  · simp only [account, hip]
    split
    · rename_i hlast
      rw [hstop]
      exact hf.last.mp hlast.1
    · rename_i hlast
      rcases hmem q hq with rfl | hq
      · have hl := hf.last.mpr (hstop ▸ hend)
        exact h.total.resolve_left fun h0 => hlast ⟨hl, h0⟩
      · exact h.last q hq hend
  · simp only [account, hip]
    split
    · rename_i hlast
      rw [hstop]
      exact .inr (hf.last.mp hlast.1)
    · exact h.total
  · simp only [account]
    by_cases h0 : packet'.info.start = 0
    · rcases hmem q hq with rfl | hq
      · simp [h0]
      · exact absurd hq0 (hnofirst h0 q hq)
    · rcases hmem q hq with rfl | hq
      · exact absurd hq0 h0
      · simpa [h0] using h.first q hq hq0
  · have h0 := hall packet' (by simp [account])
    simp only [account, h0, decide_false, Bool.false_eq_true, if_false]
    refine h.noFirst fun q hq => ?_
    rw [ha.fragments] at hq
    rcases List.mem_append.mp hq with hq | hq
    · exact hall q (List.mem_append_left _ hq)
    · exact ha.pos_of_behind hf.ok q hq
  · rcases hmem q hq with rfl | hq
    · simp only [account]
      rw [hip, hid]
    · exact h.identity q hq

theorem dropped_ok (h : EntryOk whole received entry) (hpos : 0 < whole.length) (wraps : Bool) :
    AssembleOk whole entry.identity received wraps ⟨some entry, none, true⟩ := by
  refine ⟨rfl, fun e he => ?_, nofun, fun _ hall => absurd hall (h.not_covered hpos)⟩
  obtain rfl := Option.some.inj he
  exact ⟨rfl, h⟩

theorem assemble_spec (h : EntryOk whole received entry) (hf : IsFragment whole packet)
    (hid : packet.ip.toIdentity = entry.identity) (hh : Harmless entry.fragments packet) (wraps : Bool) :
    ∃ r, assemble wraps entry packet = some r ∧ AssembleOk whole entry.identity (received ++ [packet]) wraps r := by
  obtain ⟨hsplit, hbefore, hbehind⟩ := @findPoint_spec whole packet _ h.sorted h.ok
  unfold assemble
  generalize findPoint packet entry.fragments = point at hsplit hbefore hbehind ⊢
  obtain ⟨before, behind⟩ := point
  simp only at hsplit hbefore hbehind ⊢
  have hs := h.sorted
  have hok := h.ok
  rw [hsplit] at hs hok
  obtain ⟨hsb, hsr, hcross⟩ := List.pairwise_append.mp hs
  have hlt : ∀ q ∈ before, ∀ r ∈ behind, q.info.stop ≤ r.info.start := by
    intro q hq r hr
    have h1 := hcross q hq r hr
    have h2 := hi_eq (hok q (List.mem_append_left _ hq))
    have h3 := lo_eq (hok r (List.mem_append_right _ hr))
    omega
  have hend : behind = [] → ∀ q ∈ before, q.info.stop ≤ packet.info.start := by
    rintro rfl
    rw [List.append_nil] at hsplit
    rw [← hsplit] at hbefore ⊢
    exact hh.atEnd hbefore
  have hlo := lo_eq hf.ok
  have hhi := hi_eq hf.ok
  rcases trimPrevious_spec hsb (fun p hp => hok p (List.mem_append_left _ hp)) hf.ok hbefore hend with
    ⟨hnone, q, hq, hqlo, hqhi⟩ | ⟨packet', hsome, hl⟩
  · -- The previous fragment contains the packet.
    rw [hnone]
    have hq' := hok q (List.mem_append_left _ hq)
    have hdrop := @drop_ok whole received entry packet before [] behind h ⟨hsplit, hbefore, hbehind⟩ hf.ok nofun
      fun i h1 h2 => (h.covered i).mp
        ⟨q, by rw [hsplit]; exact List.mem_append_left _ hq, by have := lo_eq hq'; omega, by have := hi_eq hq'; omega⟩
    rw [← hsplit, size_nil, Int.natCast_zero, Int.sub_zero] at hdrop
    exact ⟨_, rfl, dropped_ok hdrop hf.pos wraps⟩
  · rw [hsome]
    have hle : ∀ q ∈ behind, packet'.info.start ≤ q.info.start := by
      intro q hq
      rcases hl.covered with hsame | ⟨r, hr, -, -, h3⟩
      · have := hbehind q hq
        omega
      · have := hlt r hr q hq
        omega
    have hover : ∀ q ∈ behind, packet'.info.start < q.info.start → q.info.start < packet'.info.stop →
        q.info.stop ≤ packet'.info.stop := by
      intro q hq h1 h2
      have hstop := hl.stop
      by_contra hlong
      obtain ⟨r, hr, h3, h4⟩ := hh.overNext q (by rw [hsplit]; exact List.mem_append_right _ hq) (hbehind q hq)
        (by omega) (by omega)
      rw [hsplit] at hr
      rcases List.mem_append.mp hr with hr | hr
      · have := hl.apart r hr
        omega
      · have := hbehind r hr
        omega
    obtain ⟨gone, rest, rfl, hgone, hcases⟩ := @absorb_spec whole packet' behind entry.curLen hsr
      (fun p hp => hok p (List.mem_append_right _ hp)) hle hover
    have ha : Around entry packet before gone rest := ⟨hsplit, hbefore, hbehind⟩
    rcases hcases with ⟨habsorb, hrest⟩ | ⟨habsorb, r, hr, hrlo, hrhi⟩
    · obtain ⟨hassert, hgathered⟩ := putIn_gathered h ha hf hid hl hgone hrest hh.emptyFirst
      have hdeliver := deliver_spec hgathered hf.pos (by simp [account]) wraps
      simp only [habsorb, Bool.and_self, Bool.true_and]
      rw [hassert]
      exact hdeliver
    · -- A fragment that starts with the packet contains it.
      have hstop := hl.stop
      have hrok := hok r (List.mem_append_right _ (List.mem_append_right _ hr))
      have hdrop := drop_ok h ha hf.ok (fun q hq => ?_) fun i h1 h2 => (h.covered i).mp ?_
      · simp only [habsorb]
        exact ⟨_, rfl, dropped_ok hdrop hf.pos wraps⟩
      · have h1 := (List.pairwise_append.mp hsr).2.2 q hq r hr
        have h2 := hgone q hq
        have h3 := lo_eq hrok
        have h4 := lo_eq (hok q (List.mem_append_right _ (List.mem_append_left _ hq)))
        omega
      · have h3 := lo_eq hrok
        have h4 := hi_eq hrok
        have h5 := lo_eq hl.ok
        rcases Nat.lt_or_ge i (lo packet') with h6 | h6
        · rcases hl.covered with hsame | ⟨q, hq, h7, h8, h9⟩
          · omega
          · have h10 := lo_eq (hok q (List.mem_append_left _ hq))
            have h11 := hi_eq (hok q (List.mem_append_left _ hq))
            exact ⟨q, ha.mem (List.mem_append_left _ hq), by omega, by omega⟩
        · exact ⟨r, ha.mem (List.mem_append_right _ hr), by omega, by omega⟩

end

end Udk.Ip4
