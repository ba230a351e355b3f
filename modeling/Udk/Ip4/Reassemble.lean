import Udk.NetBuffer.Ends
import Udk.Ranges
import Udk.Run

/-! # The reassembly of IP4 datagrams

`INTN` is an integer. A `NET_BUF` is the bytes that it has. A result `none` stands for an access through a NULL
pointer or behind an array.
-/

namespace Udk.Ip4

open Ranges NetBuffer

def ip4FragmentLife : Int := 120
def ip4AssembleHashSize : Nat := 31
def ip4HeadMfMask : Nat := 0x2000

/-- What the fragments of one packet have in common. -/
structure Identity where
  dst : Nat
  src : Nat
  id : Nat
  protocol : Nat
  deriving DecidableEq

/-- The fields of `IP4_HEAD` that the reassembly looks at. -/
structure Ip4Head extends Identity where
  fragment : Nat
  deriving DecidableEq

/-- `IP4_CLIP_INFO`; `stop` is its `End`. -/
structure ClipInfo where
  linkFlag : Nat
  castType : Int
  start : Int
  stop : Int
  length : Int
  life : Nat
  status : Nat
  deriving DecidableEq

structure Packet where
  ip : Ip4Head
  info : ClipInfo
  bytes : List UInt8
  deriving DecidableEq

instance : Ranged Packet where
  lo packet := packet.info.start.toNat
  hi packet := packet.info.stop.toNat

/-- `IP4_ASSEMBLE_ENTRY`. -/
structure AssembleEntry where
  identity : Identity
  totalLen : Int
  curLen : Int
  fragments : List Packet
  head : Option Ip4Head
  info : Option ClipInfo
  life : Int

/-- The entries in each bucket. -/
abbrev AssembleTable := Nat → List AssembleEntry

/-- The packet over all fragments. -/
structure NewPacket where
  ip : Option Ip4Head
  info : ClipInfo
  bytes : List UInt8
  deriving DecidableEq

def Ip4Head.lastFragment (head : Ip4Head) : Prop := head.fragment &&& ip4HeadMfMask = 0

instance (head : Ip4Head) : Decidable head.lastFragment := inferInstanceAs (Decidable (_ = _))

def ip4AssembleHash (identity : Identity) : Nat :=
  (identity.dst + identity.src + identity.id <<< 16 + identity.protocol) % 2 ^ 32 % ip4AssembleHashSize

def ip4CreateAssembleEntry (identity : Identity) : AssembleEntry :=
  ⟨identity, 0, 0, [], none, none, ip4FragmentLife⟩

/-! ## `Ip4TrimPacket` -/

/-- `NetbufTrim` with the length as `UINT32`. -/
def trimBuffer (bytes : List UInt8) (len : Int) (fromHead : Bool) : List UInt8 :=
  trimBytes bytes (len % 2 ^ 32).toNat fromHead

def trimHead (packet : Packet) (start : Int) : Packet :=
  if packet.info.start < start then
    let len := start - packet.info.start
    { packet with
      bytes := trimBuffer packet.bytes len true
      info := { packet.info with start, length := packet.info.length - len } }
  else packet

def trimTail (packet : Packet) (stop : Int) : Packet :=
  if stop < packet.info.stop then
    let len := stop - packet.info.stop
    { packet with
      bytes := trimBuffer packet.bytes len false
      info := { packet.info with stop, length := packet.info.length - len } }
  else packet

/-- The packet, and whether the assertions hold. -/
def ip4TrimPacket (packet : Packet) (start stop : Int) : Packet × Bool :=
  (trimTail (trimHead packet start) stop,
    packet.info.start + packet.info.length = packet.info.stop ∧ packet.info.start < stop ∧ start < packet.info.stop)

/-! ## `Ip4Reassemble` -/

/-- The fragments before the point where the packet is put in, and those behind. -/
def findPoint (packet : Packet) (fragments : List Packet) : List Packet × List Packet :=
  fragments.span fun fragment => ¬packet.info.start < fragment.info.start

/-- What is left of the packet behind the previous fragment, which is looked at when there is one behind too. -/
def trimPrevious (packet : Packet) (before behind : List Packet) : Option (Packet × Bool) :=
  match behind, before.getLast? with
  | _ :: _, some node =>
    if packet.info.start < node.info.stop then
      if packet.info.stop ≤ node.info.stop then none
      else some (ip4TrimPacket packet node.info.stop packet.info.stop)
    else some (packet, true)
  | _, _ => some (packet, true)

/-- What the loop leaves of the packet, of the fragments behind it and of the length. -/
structure Absorbed where
  packet : Option Packet
  behind : List Packet
  curLen : Int
  asserts : Bool

def absorb (packet : Packet) : List Packet → Int → Absorbed
  | [], curLen => ⟨some packet, [], curLen, true⟩
  | node :: behind, curLen =>
    if node.info.stop ≤ packet.info.stop then absorb packet behind (curLen - node.info.length)
    else if node.info.start < packet.info.stop then
      if packet.info.start = node.info.start then ⟨none, node :: behind, curLen, true⟩
      else
        let (packet, asserts) := ip4TrimPacket packet packet.info.start node.info.start
        ⟨some packet, node :: behind, curLen, asserts⟩
    else ⟨some packet, node :: behind, curLen, true⟩

/-- The entry with the packet among its fragments, and whether the assertion holds. -/
def account (entry : AssembleEntry) (packet : Packet) : AssembleEntry × Bool :=
  let first : Bool := packet.info.start = 0
  ({ entry with
      curLen := entry.curLen + packet.info.length
      head := if first then some packet.ip else entry.head
      info := if first then some packet.info else entry.info
      totalLen := if packet.ip.lastFragment ∧ entry.totalLen = 0 then packet.info.stop else entry.totalLen },
    !first || entry.head.isNone)

/-- What stays of the entry, and the packet that is returned. -/
structure Assembled where
  entry : Option AssembleEntry
  returned : Option NewPacket
  asserts : Bool

/-- `wraps` tells whether `NetbufFromBufList` has the memory it needs. -/
def deliver (wraps : Bool) (entry : AssembleEntry) (asserts : Bool) : Option Assembled :=
  if entry.totalLen ≠ 0 ∧ entry.totalLen ≤ entry.curLen then
    match entry.fragments.getLast? with
    | none => none
    | some fragment =>
      if fragment.info.stop ≠ entry.totalLen then some ⟨none, none, asserts⟩
      else
        let bytes := entry.fragments.flatMap Packet.bytes
        if wraps then
          if bytes = [] then none
          else entry.info.map fun info => ⟨none, some ⟨entry.head, info, bytes⟩, asserts⟩
        else some ⟨none, none, asserts⟩
  else some ⟨some entry, none, asserts⟩

/-- The part of `Ip4Reassemble` that works on the entry. -/
def assemble (wraps : Bool) (entry : AssembleEntry) (packet : Packet) : Option Assembled :=
  let (before, behind) := findPoint packet entry.fragments
  match trimPrevious packet before behind with
  | none => some ⟨some entry, none, true⟩
  | some (packet, trimmed) =>
    let absorbed := absorb packet behind entry.curLen
    match absorbed.packet with
    | none =>
      some ⟨some { entry with fragments := before ++ absorbed.behind, curLen := absorbed.curLen }, none, trimmed⟩
    | some packet =>
      let (entry, first) := account
        { entry with fragments := before ++ packet :: absorbed.behind, curLen := absorbed.curLen } packet
      deliver wraps entry (trimmed && absorbed.asserts && first)

/-- The entry is changed where it is linked. -/
def setEntry (entry : AssembleEntry) : List AssembleEntry → List AssembleEntry
  | [] => []
  | e :: entries => if e.identity = entry.identity then entry :: entries else e :: setEntry entry entries

def removeEntry (identity : Identity) (bucket : List AssembleEntry) : List AssembleEntry :=
  bucket.eraseP fun entry => entry.identity = identity

def findEntry (identity : Identity) (bucket : List AssembleEntry) : Option AssembleEntry :=
  bucket.find? fun entry => entry.identity = identity

def AssembleTable.set (table : AssembleTable) (index : Nat) (bucket : List AssembleEntry) : AssembleTable :=
  fun i => if i = index then bucket else table i

structure Result where
  table : AssembleTable
  returned : Option NewPacket
  asserts : Bool

/-- `allocates` tells whether there is memory for a new entry. -/
def ip4Reassemble (allocates wraps : Bool) (table : AssembleTable) (packet : Packet) : Option Result :=
  let identity := packet.ip.toIdentity
  let index := ip4AssembleHash identity
  let found := match findEntry identity (table index) with
    | some entry => some (entry, table index)
    | none =>
      if allocates then some (ip4CreateAssembleEntry identity, ip4CreateAssembleEntry identity :: table index) else none
  match found with
  | none => some ⟨table, none, true⟩
  | some (entry, bucket) =>
    (assemble wraps entry packet).map fun r =>
      { table := table.set index <| match r.entry with
          | some entry => setEntry entry bucket
          | none => removeEntry identity bucket
        returned := r.returned
        asserts := r.asserts }

/-- The first part of `Ip4PacketTimerTicking`. -/
def ip4AssembleTicking (table : AssembleTable) : AssembleTable := fun index =>
  (table index).filterMap fun entry =>
    if 0 < entry.life then
      if entry.life - 1 = 0 then none else some { entry with life := entry.life - 1 }
    else some entry

/-! ## The system -/

structure System where
  table : AssembleTable
  /-- Whether each assertion so far holds. -/
  asserts : Bool
  /-- The packets that were received since the entry for them was made. -/
  received : Identity → List Packet
  returned : List (Identity × NewPacket)

inductive Event
  | frame (packet : Packet) (allocates wraps : Bool)
  | tick

def lookup (table : AssembleTable) (identity : Identity) : Option AssembleEntry :=
  findEntry identity (table (ip4AssembleHash identity))

def System.init : System := ⟨fun _ => [], true, fun _ => [], []⟩

/-- Only what an entry is there for counts as received. -/
def receivedFor (table : AssembleTable) (received : Identity → List Packet) : Identity → List Packet :=
  fun identity => if (lookup table identity).isSome then received identity else []

def System.step (s : System) : Event → Option System
  | .frame packet allocates wraps =>
    (ip4Reassemble allocates wraps s.table packet).map fun r =>
      { table := r.table
        asserts := s.asserts && r.asserts
        received := receivedFor r.table fun identity =>
          if identity = packet.ip.toIdentity then s.received identity ++ [packet] else s.received identity
        returned := (r.returned.map fun p => (packet.ip.toIdentity, p)).toList ++ s.returned }
  | .tick => some
      { s with table := ip4AssembleTicking s.table, received := receivedFor (ip4AssembleTicking s.table) s.received }

end Udk.Ip4
