import Mathlib.Logic.Function.Basic
import Udk.Run

/-! # The route table of IP4 and its cache

Routes with masks of one length are in one area. What `Ip4Route` finds is kept in a bucket of the cache of the table
it was asked for, tagged with the address of the route.
-/

namespace Udk.Ip4.Route

inductive EfiStatus
  | success
  | accessDenied
  | notFound
  deriving DecidableEq

/-- The masks by their length. -/
def gIp4AllMasks : List UInt32 :=
  [0x00000000, 0x80000000, 0xC0000000, 0xE0000000, 0xF0000000, 0xF8000000, 0xFC000000, 0xFE000000,
    0xFF000000, 0xFF800000, 0xFFC00000, 0xFFE00000, 0xFFF00000, 0xFFF80000, 0xFFFC0000, 0xFFFE0000,
    0xFFFF0000, 0xFFFF8000, 0xFFFFC000, 0xFFFFE000, 0xFFFFF000, 0xFFFFF800, 0xFFFFFC00, 0xFFFFFE00,
    0xFFFFFF00, 0xFFFFFF80, 0xFFFFFFC0, 0xFFFFFFE0, 0xFFFFFFF0, 0xFFFFFFF8, 0xFFFFFFFC, 0xFFFFFFFE,
    0xFFFFFFFF]

def ip4MaskNum : Nat := 33

/-- `IP4_MASK_NUM` for a mask that is not contiguous. -/
def netGetMaskLength (netMask : UInt32) : Nat := gIp4AllMasks.findIdx (· = netMask)

/-- `IP4_NET_EQUAL`. -/
def ip4NetEqual (ip1 ip2 netMask : UInt32) : Bool := ip1 &&& netMask = ip2 &&& netMask

def ip4DirectRoute : UInt32 := 1

/-- `IP4_ROUTE_ENTRY`, and where it is. The number tells routes apart that were at one address. -/
structure RouteEntry where
  address : Nat
  number : Nat
  dest : UInt32
  netmask : UInt32
  nextHop : UInt32
  flag : UInt32
  deriving DecidableEq

/-- `IP4_ROUTE_CACHE_ENTRY`, and the number of the route it was spawned from. -/
structure RouteCacheEntry where
  dest : UInt32
  src : UInt32
  nextHop : UInt32
  tag : Nat
  spawnedFrom : Nat
  deriving DecidableEq

def ip4RouteCacheMax : Nat := 64

/-- `IP4_ROUTE_CACHE_HASH`. -/
def ip4RouteCacheHash (dst src : UInt32) : Nat := ((dst ^^^ src) % 31).toNat

structure RouteTable where
  totalNum : Nat
  routeArea : Nat → List RouteEntry
  cacheBucket : Nat → List RouteCacheEntry

def ip4CreateRouteTable : RouteTable where
  totalNum := 0
  routeArea := fun _ => []
  cacheBucket := fun _ => []

/-! ## The tables -/

/-- `Ip4CreateRouteEntry`. -/
def ip4CreateRouteEntry (address number : Nat) (dest netmask gateway : UInt32) : RouteEntry :=
  ⟨address, number, dest, netmask, gateway, 0⟩

/-- The new route is at `address`. -/
def ip4AddRoute (t : RouteTable) (address number : Nat) (dest netmask gateway : UInt32) : EfiStatus × RouteTable :=
  let head := netGetMaskLength netmask
  if (t.routeArea head).any fun r => ip4NetEqual r.dest dest netmask && r.nextHop = gateway then (.accessDenied, t)
  else
    let r := ip4CreateRouteEntry address number dest netmask gateway
    let r := if gateway = 0 then { r with flag := ip4DirectRoute } else r
    (.success,
      { t with
        routeArea := Function.update t.routeArea head (r :: t.routeArea head)
        totalNum := t.totalNum + 1 })

def ip4PurgeRouteCache (cacheBucket : Nat → List RouteCacheEntry) (tag : Nat) : Nat → List RouteCacheEntry :=
  fun index => (cacheBucket index).filter fun e => e.tag ≠ tag

/-- The status, the route that was deleted, and the table. -/
def ip4DelRoute (t : RouteTable) (dest netmask gateway : UInt32) : EfiStatus × Option RouteEntry × RouteTable :=
  let head := netGetMaskLength netmask
  let same := fun r : RouteEntry => ip4NetEqual r.dest dest netmask && r.nextHop = gateway
  match (t.routeArea head).find? same with
  | some r =>
    (.success, some r,
      { routeArea := Function.update t.routeArea head ((t.routeArea head).eraseP same)
        cacheBucket := ip4PurgeRouteCache t.cacheBucket r.address
        totalNum := t.totalNum - 1 })
  | none => (.notFound, none, t)

/-! ## Lookups -/

def ip4FindRouteCache (t : RouteTable) (dest src : UInt32) : Option RouteCacheEntry :=
  (t.cacheBucket (ip4RouteCacheHash dest src)).find? fun e => e.dest = dest && e.src = src

/-- From the longest masks on, and for each length through the tables. -/
def ip4FindRouteEntry (chain : List RouteTable) (dst : UInt32) : Option RouteEntry :=
  (List.range ip4MaskNum).reverse.findSome? fun index =>
    chain.findSome? fun t => (t.routeArea index).find? fun r => ip4NetEqual r.dest dst r.netmask

/-- The loop that removes entries at the tail of a bucket. -/
def trimBucket : Nat → List RouteCacheEntry → List RouteCacheEntry
  | _, [] => []
  | count, e :: bucket =>
    if count + 1 < ip4RouteCacheMax then e :: trimBucket (count + 1) bucket else trimBucket (count + 1) bucket

/-- The next hop of a route for `dest`. -/
def RouteEntry.hop (r : RouteEntry) (dest : UInt32) : UInt32 :=
  if r.flag &&& ip4DirectRoute ≠ 0 then dest else r.nextHop

/-- The tables behind `t` are in `next`. -/
def ip4Route (t : RouteTable) (next : List RouteTable) (dest src : UInt32) : Option RouteCacheEntry × RouteTable :=
  let head := ip4RouteCacheHash dest src
  match ip4FindRouteCache t dest src with
  | some e =>
    let rest := (t.cacheBucket head).eraseP fun e => e.dest = dest && e.src = src
    (some e, { t with cacheBucket := Function.update t.cacheBucket head (e :: rest) })
  | none =>
    match ip4FindRouteEntry (t :: next) dest with
    | none => (none, t)
    | some r =>
      let e : RouteCacheEntry := ⟨dest, src, r.hop dest, r.address, r.number⟩
      (some e, { t with cacheBucket := Function.update t.cacheBucket head (trimBucket 0 (e :: t.cacheBucket head)) })

/-! ## Runs -/

/-- The table of an instance, or the default table that follows it. -/
inductive Which
  | own
  | shared
  deriving DecidableEq

structure State where
  own : RouteTable
  shared : RouteTable
  /-- How many routes have been added. -/
  added : Nat

def start : State := ⟨ip4CreateRouteTable, ip4CreateRouteTable, 0⟩

def State.table (s : State) : Which → RouteTable
  | .own => s.own
  | .shared => s.shared

def State.setTable (s : State) (w : Which) (t : RouteTable) : State :=
  match w with
  | .own => { s with own := t }
  | .shared => { s with shared := t }

/-- The tables behind a table. -/
def State.behind (s : State) : Which → List RouteTable
  | .own => [s.shared]
  | .shared => []

/-- The routes of a table, from those of all masks. -/
def RouteTable.routes (t : RouteTable) : List RouteEntry := (List.range ip4MaskNum).flatMap t.routeArea

inductive Event
  /-- The allocator gives `address` for the new route. -/
  | add (w : Which) (address : Nat) (dest netmask gateway : UInt32)
  | delete (w : Which) (dest netmask gateway : UInt32)
  | route (w : Which) (dest src : UInt32)

/-- A route is not allocated where another one is. -/
def step (s : State) : Event → Option State
  | .add w address dest netmask gateway =>
    if address ∈ (s.own.routes ++ s.shared.routes).map (·.address) then none
    else
      let (_, t) := ip4AddRoute (s.table w) address s.added dest netmask gateway
      some { s.setTable w t with added := s.added + 1 }
  | .delete w dest netmask gateway =>
    let (_, _, t) := ip4DelRoute (s.table w) dest netmask gateway
    some (s.setTable w t)
  | .route w dest src =>
    let (_, t) := ip4Route (s.table w) (s.behind w) dest src
    some (s.setTable w t)

end Udk.Ip4.Route
