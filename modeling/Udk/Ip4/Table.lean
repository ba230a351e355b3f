import Udk.Ip4.Entry

/-! # The table of all datagrams -/

namespace Udk.Ip4

open Ranges

/-- Each entry is in its bucket, and no other entry has its identity. -/
structure Linked (table : AssembleTable) : Prop where
  hash : ∀ i, ∀ e ∈ table i, ip4AssembleHash e.identity = i
  distinct : ∀ i, ((table i).map AssembleEntry.identity).Nodup

/-- Each entry has gathered what was received for it. -/
structure TableOk (orig : Identity → List UInt8) (received : Identity → List Packet) (table : AssembleTable) : Prop where
  linked : Linked table
  entries : ∀ i, ∀ e ∈ table i, EntryOk (orig e.identity) (received e.identity) e
  received : ∀ identity, lookup table identity = none → received identity = []

/-- The fragments that wait for others of the datagram. -/
def queued (table : AssembleTable) (identity : Identity) : List Packet :=
  match lookup table identity with
  | some entry => entry.fragments
  | none => []

section
variable {table : AssembleTable} {bucket : List AssembleEntry} {entry e : AssembleEntry} {identity : Identity}

theorem findEntry_some (h : findEntry identity bucket = some entry) : entry ∈ bucket ∧ entry.identity = identity :=
  ⟨List.mem_of_find?_eq_some h, by simpa using List.find?_some h⟩

theorem findEntry_none : findEntry identity bucket = none ↔ ∀ e ∈ bucket, e.identity ≠ identity := by
  simp [findEntry]

theorem lookup_isSome (h : Linked table) {i : Nat} (he : e ∈ table i) : (lookup table e.identity).isSome := by
  rw [lookup, h.hash i e he, Option.isSome_iff_ne_none]
  intro hnone
  exact findEntry_none.mp hnone e he rfl

/-! ## Changes of a bucket -/

theorem setEntry_identities (entry : AssembleEntry) (bucket : List AssembleEntry) :
    (setEntry entry bucket).map AssembleEntry.identity = bucket.map AssembleEntry.identity := by
  induction bucket with
  | nil => rfl
  | cons e bucket ih =>
    rw [setEntry]
    split
    · rename_i heq
      rw [List.map_cons, List.map_cons, heq]
    · rw [List.map_cons, List.map_cons, ih]

theorem mem_setEntry (hn : (bucket.map AssembleEntry.identity).Nodup) (he : e ∈ setEntry entry bucket) :
    e = entry ∨ (e ∈ bucket ∧ e.identity ≠ entry.identity) := by
  induction bucket with
  | nil => cases he
  | cons head bucket ih =>
    rw [List.map_cons, List.nodup_cons] at hn
    rw [setEntry] at he
    split at he
    · rename_i heq
      rcases List.mem_cons.mp he with rfl | he
      · exact .inl rfl
      · refine .inr ⟨List.mem_cons_of_mem _ he, fun hsame => hn.1 ?_⟩
        rw [heq, ← hsame]
        exact List.mem_map_of_mem he
    · rename_i hne
      rcases List.mem_cons.mp he with rfl | he
      · exact .inr ⟨List.mem_cons_self .., hne⟩
      · exact (ih hn.2 he).imp_right fun h => ⟨List.mem_cons_of_mem _ h.1, h.2⟩

theorem mem_removeEntry (hn : (bucket.map AssembleEntry.identity).Nodup) (he : e ∈ removeEntry identity bucket) :
    e ∈ bucket ∧ e.identity ≠ identity := by
  refine ⟨List.mem_of_mem_eraseP he, fun hsame => ?_⟩
  induction bucket with
  | nil => cases he
  | cons head bucket ih =>
    rw [List.map_cons, List.nodup_cons] at hn
    by_cases heq : head.identity = identity
    · rw [removeEntry, List.eraseP_cons_of_pos (by simpa using heq)] at he
      refine hn.1 ?_
      rw [heq, ← hsame]
      exact List.mem_map_of_mem he
    · rw [removeEntry, List.eraseP_cons_of_neg (by simpa using heq)] at he
      rcases List.mem_cons.mp he with rfl | he
      · exact heq hsame
      · exact ih hn.2 he

theorem removeEntry_nodup (hn : (bucket.map AssembleEntry.identity).Nodup) :
    ((removeEntry identity bucket).map AssembleEntry.identity).Nodup :=
  hn.sublist (List.Sublist.map _ List.eraseP_sublist)

/-- One bucket is replaced by one with entries for its index. -/
theorem Linked.set (h : Linked table) {index : Nat} (hhash : ∀ e ∈ bucket, ip4AssembleHash e.identity = index)
    (hn : (bucket.map AssembleEntry.identity).Nodup) : Linked (table.set index bucket) := by
  constructor
  · intro i e he
    unfold AssembleTable.set at he
    split at he
    · rename_i hi
      rw [hi]
      exact hhash e he
    · exact h.hash i e he
  · intro i
    unfold AssembleTable.set
    split
    · exact hn
    · exact h.distinct i

end

/-! ## `Ip4Reassemble` -/

section
variable {orig : Identity → List UInt8} {received : Identity → List Packet} {table : AssembleTable} {packet : Packet}

/-- What was received once the packet is there. -/
def receive (received : Identity → List Packet) (packet : Packet) : Identity → List Packet :=
  fun identity => if identity = packet.ip.toIdentity then received identity ++ [packet] else received identity

/-- The packet's own entry is worked on, and the others stay. -/
structure ReassembleOk (orig : Identity → List UInt8) (received : Identity → List Packet) (packet : Packet)
    (memory : Bool) (r : Result) : Prop where
  asserts : r.asserts = true
  linked : Linked r.table
  entries : ∀ i, ∀ e ∈ r.table i, EntryOk (orig e.identity) (receive received packet e.identity) e
  returned : ∀ p, r.returned = some p →
    p.bytes = orig packet.ip.toIdentity ∧ ∃ head, p.ip = some head ∧ head.toIdentity = packet.ip.toIdentity
  complete : memory = true → (∀ i < (orig packet.ip.toIdentity).length,
    Covered (receive received packet packet.ip.toIdentity) i) → r.returned.isSome

/-- The entry is in a bucket, perhaps a new one, that takes the place of the one in the table. -/
theorem assemble_in_bucket {bucket : List AssembleEntry} {entry : AssembleEntry} (h : TableOk orig received table)
    (hf : IsFragment (orig packet.ip.toIdentity) packet) (hid : entry.identity = packet.ip.toIdentity)
    (hentry : EntryOk (orig packet.ip.toIdentity) (received packet.ip.toIdentity) entry)
    (hn : (bucket.map AssembleEntry.identity).Nodup)
    (hbucket : ∀ e ∈ bucket, e.identity ≠ packet.ip.toIdentity → e ∈ table (ip4AssembleHash packet.ip.toIdentity))
    (hh : Harmless entry.fragments packet) (wraps : Bool) :
    ∃ r, assemble wraps entry packet = some r ∧
      ReassembleOk orig received packet wraps
        { table := table.set (ip4AssembleHash packet.ip.toIdentity) <| match r.entry with
            | some entry => setEntry entry bucket
            | none => removeEntry packet.ip.toIdentity bucket
          returned := r.returned
          asserts := r.asserts } := by
  obtain ⟨r, hr, hok⟩ := assemble_spec hentry hf hid.symm hh wraps
  have hself : receive received packet packet.ip.toIdentity = received packet.ip.toIdentity ++ [packet] := if_pos rfl
  have hother : ∀ i, ∀ e ∈ table i, e.identity ≠ packet.ip.toIdentity →
      EntryOk (orig e.identity) (receive received packet e.identity) e := by
    intro i e he hne
    rw [receive, if_neg hne]
    exact h.entries i e he
  rw [hid] at hok
  obtain ⟨bucket', hbucket', hn', hmem'⟩ : ∃ bucket', bucket' = (match r.entry with
        | some entry => setEntry entry bucket
        | none => removeEntry packet.ip.toIdentity bucket) ∧
      (bucket'.map AssembleEntry.identity).Nodup ∧
      ∀ e ∈ bucket', ip4AssembleHash e.identity = ip4AssembleHash packet.ip.toIdentity ∧
        EntryOk (orig e.identity) (receive received packet e.identity) e := by
    have hrest : ∀ e ∈ bucket, e.identity ≠ packet.ip.toIdentity →
        ip4AssembleHash e.identity = ip4AssembleHash packet.ip.toIdentity ∧
          EntryOk (orig e.identity) (receive received packet e.identity) e :=
      fun e hmem hne => ⟨h.linked.hash _ e (hbucket e hmem hne), hother _ e (hbucket e hmem hne) hne⟩
    cases he : r.entry with
    | some e =>
      obtain ⟨heid, heok⟩ := hok.entry e he
      refine ⟨_, rfl, by rw [setEntry_identities]; exact hn, fun e' he' => ?_⟩
      rcases mem_setEntry hn he' with rfl | ⟨hmem, hne⟩
      · rw [heid, hself]
        exact ⟨rfl, heok⟩
      · exact hrest e' hmem (heid ▸ hne)
    | none =>
      refine ⟨_, rfl, removeEntry_nodup hn, fun e' he' => ?_⟩
      obtain ⟨hmem, hne⟩ := mem_removeEntry hn he'
      exact hrest e' hmem hne
  refine ⟨r, hr, ?_⟩
  rw [← hbucket']
  refine ⟨hok.asserts, h.linked.set (fun e he => (hmem' e he).1) hn', fun i e he => ?_, hok.returned,
    fun hm hall => hok.complete hm (by rwa [hself] at hall)⟩
  simp only [AssembleTable.set] at he
  split at he
  · exact (hmem' e he).2
  · rename_i hi
    refine hother i e he fun heq => hi ?_
    rw [← heq]
    exact (h.linked.hash i e he).symm

theorem ip4Reassemble_spec (h : TableOk orig received table) (hf : IsFragment (orig packet.ip.toIdentity) packet)
    (hh : Harmless (queued table packet.ip.toIdentity) packet) (allocates wraps : Bool) :
    ∃ r, ip4Reassemble allocates wraps table packet = some r ∧
      ReassembleOk orig received packet (allocates && wraps) r := by
  have hweak : ∀ {r : Result}, ReassembleOk orig received packet wraps r →
      ReassembleOk orig received packet (allocates && wraps) r := fun hr =>
    { hr with complete := fun hm => hr.complete (Bool.and_eq_true_iff.mp hm).2 }
  have hn := h.linked.distinct (ip4AssembleHash packet.ip.toIdentity)
  unfold ip4Reassemble
  cases hfind : findEntry packet.ip.toIdentity (table (ip4AssembleHash packet.ip.toIdentity)) with
  | some entry =>
    obtain ⟨hmem, hid⟩ := findEntry_some hfind
    have hentry := h.entries _ entry hmem
    rw [hid] at hentry
    have hq : queued table packet.ip.toIdentity = entry.fragments := by rw [queued, lookup, hfind]
    obtain ⟨r, hr, hok⟩ := assemble_in_bucket h hf hid hentry hn (fun e he _ => he) (hq ▸ hh) wraps
    simp only [hfind, hr, Option.map_some]
    exact ⟨_, rfl, hweak hok⟩
  | none =>
    have hnone := findEntry_none.mp hfind
    cases allocates with
    | false =>
      simp only [hfind]
      refine ⟨_, rfl, rfl, h.linked, fun i e he => ?_, nofun, nofun⟩
      have hne : e.identity ≠ packet.ip.toIdentity := fun heq =>
        hnone e (by rw [← heq, h.linked.hash i e he]; exact he) heq
      rw [receive, if_neg hne]
      exact h.entries i e he
    | true =>
      have hnil := h.received packet.ip.toIdentity hfind
      have hq : queued table packet.ip.toIdentity = [] := by rw [queued, lookup, hfind]
      obtain ⟨r, hr, hok⟩ := @assemble_in_bucket orig received table packet
        (ip4CreateAssembleEntry packet.ip.toIdentity :: table (ip4AssembleHash packet.ip.toIdentity))
        (ip4CreateAssembleEntry packet.ip.toIdentity) h hf rfl
        (by rw [hnil]; exact createAssembleEntry_ok _ _)
        (List.nodup_cons.mpr ⟨fun hmem => by
          obtain ⟨e, he, heq⟩ := List.mem_map.mp hmem
          exact hnone e he heq, hn⟩)
        (fun e he hne => by
          rcases List.mem_cons.mp he with rfl | he
          · exact absurd rfl hne
          · exact he)
        (by rw [hq] at hh; exact hh) wraps
      simp only [hfind, if_true, hr, Option.map_some]
      exact ⟨_, rfl, hweak hok⟩

end

end Udk.Ip4
