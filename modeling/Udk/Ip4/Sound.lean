import Udk.Ip4.Table

/-! # Reassembly over whole runs -/

namespace Udk.Ip4

open Ranges

/-- A packet is a fragment of the datagram with its identity. -/
def Event.OfDatagram (orig : Identity → List UInt8) : Event → Prop
  | .frame packet _ _ => IsFragment (orig packet.ip.toIdentity) packet
  | .tick => True

/-- A packet is one that the list of its entry is ready for. -/
def Event.Harmless (s : System) : Event → Prop
  | .frame packet _ _ => Ip4.Harmless (queued s.table packet.ip.toIdentity) packet
  | .tick => True

def Event.Ok (orig : Identity → List UInt8) (s : System) (e : Event) : Prop := e.OfDatagram orig ∧ e.Harmless s

structure Sound (orig : Identity → List UInt8) (s : System) : Prop where
  asserts : s.asserts = true
  returned : ∀ r ∈ s.returned, r.2.bytes = orig r.1 ∧ ∃ head, r.2.ip = some head ∧ head.toIdentity = r.1
  sorted : ∀ i, ∀ e ∈ s.table i, Sorted e.fragments
  curLen : ∀ i, ∀ e ∈ s.table i, e.curLen =
    ((Finset.range (orig e.identity).length).filter (Covered (s.received e.identity))).card

/-- With the next packet all of its datagram is received, and there is memory for what that takes. -/
def Completes (orig : Identity → List UInt8) (s : System) (e : Event) (identity : Identity) : Prop :=
  ∃ packet, e = .frame packet true true ∧ identity = packet.ip.toIdentity ∧
    ∀ i < (orig identity).length, Covered (s.received identity ++ [packet]) i

section
variable {orig : Identity → List UInt8} {s s' : System} {e : Event}

/-! ## The timer -/

theorem tick_entry {bucket : List AssembleEntry} {e : AssembleEntry}
    (he : e ∈ bucket.filterMap fun entry =>
      if 0 < entry.life then if entry.life - 1 = 0 then none else some { entry with life := entry.life - 1 }
      else some entry) : ∃ e' ∈ bucket, ∃ life, e = { e' with life } := by
  obtain ⟨e', hmem, he'⟩ := List.mem_filterMap.mp he
  refine ⟨e', hmem, ?_⟩
  split at he'
  · split at he'
    · cases he'
    · exact ⟨_, (Option.some.inj he').symm⟩
  · exact ⟨e'.life, (Option.some.inj he').symm⟩

theorem EntryOk.setLife {whole : List UInt8} {received : List Packet} {entry : AssembleEntry}
    (h : EntryOk whole received entry) (life : Int) : EntryOk whole received { entry with life } :=
  ⟨⟨h.sorted, h.ok, h.curLen, h.covered, h.last, h.total, h.first, h.noFirst, h.identity⟩, h.waiting⟩

theorem tick_linked {table : AssembleTable} (h : Linked table) : Linked (ip4AssembleTicking table) := by
  constructor
  · intro i e he
    obtain ⟨e', hmem, life, rfl⟩ := tick_entry he
    exact h.hash i e' hmem
  · intro i
    refine (h.distinct i).sublist ?_
    unfold ip4AssembleTicking
    induction table i with
    | nil => exact List.Sublist.refl _
    | cons e bucket ih =>
      rw [List.filterMap_cons, List.map_cons]
      split
      · exact ih.cons _
      · rename_i e' he'
        obtain ⟨e'', hmem, life, rfl⟩ := @tick_entry [e] e' (List.mem_filterMap.mpr ⟨e, List.mem_singleton_self _, he'⟩)
        obtain rfl := List.mem_singleton.mp hmem
        exact ih.cons_cons _

/-! ## One step -/

theorem tableOk_receivedFor {received : Identity → List Packet} {table : AssembleTable} (h : Linked table)
    (hentries : ∀ i, ∀ e ∈ table i, EntryOk (orig e.identity) (received e.identity) e) :
    TableOk orig (receivedFor table received) table := by
  refine ⟨h, fun i e he => ?_, fun identity hnone => ?_⟩
  · rw [receivedFor, if_pos (lookup_isSome h he)]
    exact hentries i e he
  · rw [receivedFor, hnone]
    rfl

/-- What holds between two events. -/
structure Inv (orig : Identity → List UInt8) (s : System) : Prop where
  table : TableOk orig s.received s.table
  asserts : s.asserts = true
  returned : ∀ r ∈ s.returned, r.2.bytes = orig r.1 ∧ ∃ head, r.2.ip = some head ∧ head.toIdentity = r.1

theorem inv_init (orig : Identity → List UInt8) : Inv orig System.init :=
  ⟨⟨⟨nofun, fun _ => List.nodup_nil⟩, nofun, fun _ _ => rfl⟩, rfl, nofun⟩

theorem step_inv (h : Inv orig s) (hok : e.Ok orig s) :
    ∃ s', System.step s e = some s' ∧ Inv orig s' ∧
      ∀ identity, Completes orig s e identity → ∃ new, s'.returned = (identity, new) :: s.returned := by
  obtain ⟨hfrag, hharmless⟩ := hok
  cases e with
  | tick =>
    refine ⟨_, rfl, ⟨tableOk_receivedFor (tick_linked h.table.linked) fun i e he => ?_, h.asserts, h.returned⟩, ?_⟩
    · obtain ⟨e', hmem, life, rfl⟩ := tick_entry he
      exact (h.table.entries i e' hmem).setLife life
    · rintro identity ⟨packet, he, -⟩
      cases he
  | frame packet allocates wraps =>
    obtain ⟨r, hr, hspec⟩ := ip4Reassemble_spec h.table hfrag hharmless allocates wraps
    refine ⟨_, by rw [System.step, hr]; rfl, ⟨tableOk_receivedFor hspec.linked hspec.entries, ?_, ?_⟩, ?_⟩
    · simp only [h.asserts, hspec.asserts, Bool.and_self]
    · intro p hp
      rcases List.mem_append.mp hp with hp | hp
      · obtain ⟨new, hnew, rfl⟩ := Option.map_eq_some_iff.mp (Option.mem_toList.mp hp)
        exact hspec.returned new hnew
      · exact h.returned p hp
    · rintro identity ⟨packet, he, rfl, hall⟩
      obtain ⟨rfl, rfl, rfl⟩ := Event.frame.inj he
      have hsome := hspec.complete rfl fun i hi => by
        rw [receive, if_pos rfl]
        exact hall i hi
      obtain ⟨new, hnew⟩ := Option.isSome_iff_exists.mp hsome
      exact ⟨new, by simp [hnew]⟩

theorem Inv.sound (h : Inv orig s) : Sound orig s := by
  refine ⟨h.asserts, h.returned, fun i e he => (h.table.entries i e he).sorted, fun i e he => ?_⟩
  have hentry := h.table.entries i e he
  rw [hentry.curLen, ← card_covered hentry.sorted (within_of_ok hentry.ok)]
  congr 2
  ext i
  simp only [Finset.mem_filter, hentry.covered]

end

/-! ## A datagram of 24 bytes -/

instance (orig : Identity → List UInt8) (e : Event) : Decidable (e.OfDatagram orig) :=
  match e with
  | .frame packet _ _ =>
    decidable_of_iff
      ((0 ≤ packet.info.start ∧ packet.info.start ≤ packet.info.stop ∧
        packet.info.length = packet.info.stop - packet.info.start ∧ packet.info.stop ≤ 65535 ∧
        packet.info.stop ≤ (orig packet.ip.toIdentity).length ∧
        packet.bytes = ((orig packet.ip.toIdentity).take packet.info.stop.toNat).drop packet.info.start.toNat) ∧
        (packet.ip.lastFragment ↔ packet.info.stop = (orig packet.ip.toIdentity).length) ∧
        (¬packet.ip.lastFragment ∨ packet.info.start ≠ 0))
      ⟨fun ⟨⟨h1, h2, h3, h4, h5, h6⟩, h7, h8⟩ => ⟨⟨h1, h2, h3, h4, h5, h6⟩, h7, h8⟩,
        fun ⟨⟨h1, h2, h3, h4, h5, h6⟩, h7, h8⟩ => ⟨⟨h1, h2, h3, h4, h5, h6⟩, h7, h8⟩⟩
  | .tick => isTrue trivial

instance (s : System) (e : Event) : Decidable (e.Harmless s) :=
  match e with
  | .frame packet _ _ =>
    decidable_of_iff
      (((∀ q ∈ queued s.table packet.ip.toIdentity, q.info.start ≤ packet.info.start) →
          ∀ q ∈ queued s.table packet.ip.toIdentity, q.info.stop ≤ packet.info.start) ∧
        (∀ q ∈ queued s.table packet.ip.toIdentity, packet.info.start < q.info.start →
          q.info.start < packet.info.stop → packet.info.stop < q.info.stop →
          ∃ q' ∈ queued s.table packet.ip.toIdentity, q'.info.start ≤ packet.info.start ∧ q'.info.stop = q.info.start) ∧
        (packet.info.start = 0 → ∀ q ∈ queued s.table packet.ip.toIdentity, q.info.start = 0 → 0 < q.info.stop))
      ⟨fun ⟨h1, h2, h3⟩ => ⟨h1, h2, h3⟩, fun ⟨h1, h2, h3⟩ => ⟨h1, h2, h3⟩⟩
  | .tick => isTrue trivial

instance (orig : Identity → List UInt8) (s : System) (e : Event) : Decidable (e.Ok orig s) :=
  inferInstanceAs (Decidable (_ ∧ _))

def sampleIdentity : Identity := ⟨0x0a000001, 0x0a000002, 77, 17⟩

def sampleOrig : Identity → List UInt8 := fun _ => (List.range 24).map UInt8.ofNat

/-- The fragment with `len` bytes from `start` on. -/
def samplePacket (start len : Nat) (more : Bool) : Event :=
  .frame ⟨⟨sampleIdentity, start / 8 + if more then ip4HeadMfMask else 0⟩, ⟨0, 1, start, start + len, len, 0, 0⟩,
    ((sampleOrig sampleIdentity).take (start + len)).drop start⟩ true true

/-- What a run shows of the system. -/
def System.summary (s : System) : Bool × List (Identity × List UInt8) × List (Int × Int) :=
  (s.asserts, s.returned.map fun r => (r.1, r.2.bytes),
    (queued s.table sampleIdentity).map fun q => (q.info.start, q.info.stop))

/-- The last part, one that overlaps it from the front, the middle again, and the first part. -/
def sampleEvents : List Event :=
  [samplePacket 16 8 false, .tick, samplePacket 8 8 true, samplePacket 8 16 false]

/-- The first fragment comes twice: an assertion fails, and it is delivered twice. -/
def repeatedFirst : List Event := [samplePacket 0 8 true, samplePacket 0 8 true, samplePacket 8 16 false]

/-- A fragment that reaches into the last one loses its bytes. -/
def reachingInto : List Event := [samplePacket 8 16 false, samplePacket 0 16 true]

/-- An empty first fragment: an assertion fails when the other one comes. -/
def emptyFirst : List Event := [samplePacket 0 0 true, samplePacket 0 8 true]

end Udk.Ip4
