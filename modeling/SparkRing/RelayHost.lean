import SparkRing.FabricRoutes

/-!
# What a Spark holds, and which of it is a relay object

The installer reads a Spark's routes, permanent neighbours, ingress filters and
qdiscs, marker processes and its own record. An object with routing protocol 82 is
owned. A relay route is a /32 link route over a fabric device to an address outside
that device's own subnet, and a relay neighbour is a permanent neighbour for such an
address. Filters and markers are the installer's by their reserved identifiers.
-/

namespace SparkRing.Relay

open Routes (Roles)

/-- One decimal number of a dotted address: up to three digits, no leading zero. -/
def octet (word : List Char) : Option ℕ :=
  if word = [] ∨ 3 < word.length ∨ ¬word.all Char.isDigit then none
  else if word ≠ ['0'] ∧ word.head? = some '0' then none
  else
    let value := word.foldl (fun total digit => 10 * total + (digit.toNat - '0'.toNat)) 0
    if value ≤ 255 then some value else none

/-- The value of a dotted IPv4 address. -/
def ipv4Address (text : String) : Option (BitVec 32) :=
  match (text.toList.splitOn '.').mapM octet with
  | some [a, b, c, d] => some (BitVec.ofNat 32 (((a * 256 + b) * 256 + c) * 256 + d))
  | _ => none

/-- An IPv4 address of a device with the length of its prefix. -/
structure Interface where
  address : BitVec 32
  /-- Bits of the prefix. -/
  prefixlen : Fin 33
  deriving DecidableEq

/-- An address lies in the network of the interface. -/
def Interface.contains (i : Interface) (value : BitVec 32) : Bool :=
  decide (value >>> (32 - i.prefixlen.val) = i.address >>> (32 - i.prefixlen.val))

/-- A network device. -/
structure Link where
  /-- Its addresses, each with its network. -/
  addresses : List Interface

/-- The routing protocol of the installer's routes and neighbours. -/
def routeProtocol : ℕ := 82

/-- A route of the main table. -/
structure RouteEntry where
  /-- Network address. -/
  destination : String
  /-- Bits of the network; a length that is no number reads as -1. -/
  prefixlen : ℤ
  /-- Output device. -/
  dev : String
  /-- Preferred source address. -/
  source : Option String
  scope : String
  /-- Routing protocol, where the installer knows its number. -/
  protocol : Option ℕ
  /-- Priority; 0 when the route names none. -/
  metric : ℕ
  gateway : Option String
  /-- Route type. -/
  kind : String
  deriving DecidableEq

/-- The route carries the ownership mark. -/
def RouteEntry.owned (r : RouteEntry) : Bool := decide (r.protocol = some routeProtocol)

/-- A neighbour entry. -/
structure NeighbourEntry where
  /-- Address of the neighbour. -/
  destination : String
  /-- Device. -/
  dev : String
  /-- Link address, in lower case. -/
  mac : String
  /-- States of the entry. -/
  states : List String
  /-- Routing protocol, where the entry names one the installer knows. -/
  protocol : Option ℕ
  deriving DecidableEq

namespace NeighbourEntry

/-- The entry carries the ownership mark. -/
def owned (n : NeighbourEntry) : Bool := decide (n.protocol = some routeProtocol)

def permanent (n : NeighbourEntry) : Bool := decide ("PERMANENT" ∈ n.states)

/-- What the kernel finds the entry by. -/
def key (n : NeighbourEntry) : String × String := (n.destination, n.dev)

end NeighbourEntry

/-- Preferences of relay filters. -/
def reservedPrefs : List ℤ := [11, 12, 13, 14, 15, 16, 17]

/-- An ingress filter of a device. -/
structure FilterEntry where
  /-- Preference; one that is no number reads as -1. -/
  pref : ℤ
  chain : ℕ
  /-- Classifier. -/
  kind : String
  /-- EtherType it matches. -/
  protocol : Option ℕ
  handle : Option ℕ
  /-- It is installed in hardware only. -/
  skipSw : Bool
  /-- Destination MAC its actions set. -/
  dstMac : Option String
  /-- EtherType its actions set. -/
  newType : Option ℕ
  /-- Device its actions redirect to. -/
  outDev : Option String
  /-- Why its actions are not a relay filter's. -/
  problem : Option String
  deriving DecidableEq

def FilterEntry.reserved (f : FilterEntry) : Bool := decide (f.chain = 0 ∧ f.pref ∈ reservedPrefs)

/-- The qdisc on the ingress of a device. -/
inductive IngressKind where
  | ingress
  | clsact
  deriving DecidableEq

/-- A process of the marker executable. -/
structure MarkerProcess where
  /-- Process number. -/
  pid : ℕ
  /-- RDMA device of its command line. -/
  device : Option String
  /-- Address and EtherType of every rule of its command line. -/
  rules : Finset (String × ℕ)
  managed : Bool
  /-- A rule that does not parse. -/
  problem : Option String
  deriving DecidableEq

/-- The installer's record on a Spark. Entries a record leaves out are absent. -/
structure InstallRecord where
  /-- Name of the Spark. -/
  spark : Option String
  position : Option ℕ
  /-- Name of the layout. -/
  layout : Option String
  /-- Label of the group. -/
  group : Option String
  /-- Ring positions of the group's members. -/
  members : Option (List ℕ)
  relayEgress : Option String
  /-- Digest of the plan. -/
  plan : Option String
  /-- Path of the marker executable. -/
  marker : Option String
  /-- Ingress qdiscs the installer added. -/
  qdiscs : Option (List String)
  deriving DecidableEq

/-- What the installer's commands can change on a Spark. -/
structure Host where
  /-- Routes in the order of the kernel. -/
  routes : List RouteEntry
  neighbours : List NeighbourEntry
  /-- The kernel holds one neighbour for an address and device. -/
  neighbours_distinct : (neighbours.map NeighbourEntry.key).Nodup
  ingressQdisc : String → Option IngressKind
  /-- The ingress filters of a device. -/
  filters : String → List FilterEntry
  markers : List MarkerProcess
  record : Option InstallRecord

/-- Everything the read script found on one Spark. -/
structure HostState extends Host where
  position : ℕ
  /-- Name in the site. -/
  name : String
  /-- The read script ran. -/
  reachable : Bool
  /-- Why it did not, or stopped early. -/
  error : String
  /-- Name the Spark gives itself. -/
  hostname : String
  /-- Devices by name. -/
  links : String → Option Link
  /-- Digest of the marker executable. -/
  markerBinary : Option String
  /-- Why the record is unreadable. -/
  recordProblem : Option String
  /-- Sections that did not parse. -/
  parseProblems : List String

/-- The four fabric devices. -/
def fabricNetdevs (roles : Roles) : List String := roles.all.map Routes.Role.netdev

/-- The four RDMA devices. -/
def rdmaDevices (roles : Roles) : List String := roles.all.map Routes.Role.device

namespace HostState

variable (state : HostState) (roles : Roles)

/-- An address lies in a network of the device. -/
def onLink (netdev address : String) : Bool :=
  match state.links netdev, ipv4Address address with
  | some link, some value => link.addresses.any fun i => i.contains value
  | _, _ => false

/-- A /32 link route over a fabric device to an address outside its subnets. -/
def isRelayRoute (r : RouteEntry) : Bool :=
  decide (r.prefixlen = 32 ∧ r.dev ∈ fabricNetdevs roles ∧ r.scope = "link" ∧ r.gateway.getD "" = "" ∧
    r.kind = "unicast") && !state.onLink r.dev r.destination

/-- Owned routes and unowned relay routes. -/
def relayRoutes : List RouteEntry := state.routes.filter fun r => r.owned || state.isRelayRoute roles r

/-- A permanent entry of a fabric device, owned or for an address outside its subnets. -/
def isRelayNeighbour (n : NeighbourEntry) : Bool :=
  n.permanent && decide (n.dev ∈ fabricNetdevs roles) && (n.owned || !state.onLink n.dev n.destination)

/-- Owned neighbours and unowned relay neighbours. -/
def relayNeighbours : List NeighbourEntry :=
  state.neighbours.filter fun n => n.owned || state.isRelayNeighbour roles n

/-- The filters of a device at reserved preferences. -/
def reservedFilters (netdev : String) : List FilterEntry := (state.filters netdev).filter FilterEntry.reserved

end HostState

end SparkRing.Relay
