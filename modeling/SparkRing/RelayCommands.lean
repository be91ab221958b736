import SparkRing.RelayHost

/-!
# The commands of an apply script and what they do on a Spark

Every command names its object the way the kernel finds it: a route by network,
device, protocol and metric, a neighbour by address and device, a filter by
preference, protocol and handle in chain 0. Building a command checks its values,
so no script holds one with a placeholder.
-/

namespace SparkRing.Relay

open Routes (Roles)

/-- EtherType of a plain frame. -/
def ethPIp : ℕ := 0x0800

/-- EtherType below the first relay tag. -/
def tagBase : ℕ := 0x88B4

/-- The EtherType of a frame with `k` relays left. -/
def tag (k : ℕ) : ℕ := if k = 0 then ethPIp else tagBase + k

/-- The relays a tagged frame has left. -/
def relaysLeft (ethertype : ℕ) : Option ℕ :=
  if ethertype = ethPIp then some 0
  else if tagBase + 1 ≤ ethertype ∧ ethertype ≤ tagBase + 7 then some (ethertype - tagBase) else none

/-- A hardware ingress filter of a relay. -/
structure RelayFilter where
  /-- Device it is on. -/
  inNetdev : String
  /-- Relays left in the frames it takes. -/
  k : ℕ
  /-- Frames it takes have a relay left, and no more than there are tags. -/
  k_range : 1 ≤ k ∧ k ≤ 7
  /-- Device it sends to. -/
  outNetdev : String
  nextMac : String
  deriving DecidableEq

namespace RelayFilter

def pref (f : RelayFilter) : ℤ := 10 + f.k

def handle (f : RelayFilter) : ℕ := f.k

/-- EtherType it matches. -/
def protocol (f : RelayFilter) : ℕ := tag f.k

/-- EtherType it sets. -/
def newType (f : RelayFilter) : ℕ := tag (f.k - 1)

/-- A planned filter has a reserved preference. -/
theorem pref_reserved (f : RelayFilter) : f.pref ∈ reservedPrefs := by
  obtain ⟨hlow, hhigh⟩ := f.k_range
  simp only [pref, reservedPrefs, List.mem_cons, List.not_mem_nil, or_false]
  omega

end RelayFilter

/-- The filter does what the plan asks of it. -/
def FilterEntry.matches (f : FilterEntry) (planned : RelayFilter) : Bool :=
  decide (f.problem = none ∧ f.kind = "flower" ∧ f.chain = 0 ∧ f.pref = planned.pref ∧
    f.protocol = some planned.protocol ∧ f.handle = some planned.handle ∧ f.skipSw ∧
    f.dstMac = some planned.nextMac.toLower ∧ f.newType = some planned.newType ∧
    f.outDev = some planned.outNetdev)

/-- A /32 route, its permanent neighbour and its marker rule where a path starts. -/
structure OriginRoute where
  /-- Address of the peer. -/
  destination : String
  /-- Output device. -/
  netdev : String
  /-- RDMA device of the marker. -/
  device : String
  source : String
  nextMac : String
  /-- EtherType the marker sets. -/
  tag : ℕ
  deriving DecidableEq

/-- What a group's plan puts on one Spark. -/
structure SparkPlan where
  position : ℕ
  /-- Name of the Spark. -/
  name : String
  routes : List OriginRoute
  filters : List RelayFilter

/-- What the record takes from a group's plan. -/
structure GroupPlan where
  /-- Label of the group. -/
  group : String
  /-- Ring positions of its members. -/
  members : List ℕ
  relayEgress : String
  /-- Digest of the plan. -/
  digest : String

/-- Where the marker executable lives. -/
structure MarkerConfig where
  /-- Path of the executable. -/
  path : String

/-- One command of an apply script. -/
inductive Command where
  /-- Stop at the first failing command. -/
  | strict
  /-- Stop unless the host has the name. -/
  | guard (hostname : String)
  /-- Add the ingress qdisc of a device. -/
  | qdiscAdd (netdev : String)
  /-- Delete the filters of a preference, or the one with the protocol and handle. -/
  | filterDel (netdev : String) (pref : ℤ) (identity : Option (ℕ × ℕ))
  | filterAdd (filter : RelayFilter)
  /-- Set a permanent neighbour. -/
  | neighReplace (destination mac netdev : String)
  /-- Set a /32 link route. -/
  | routeReplace (destination netdev source : String)
  /-- Stop a marker process and wait for its exit. -/
  | markerStop (pid : ℕ)
  | markerStart (device : String) (rules : List (String × ℕ))
  /-- Delete a /32 route. -/
  | routeDel (destination netdev : String) (protocol : Option ℕ) (metric : ℕ)
  | neighDel (destination netdev : String)
  /-- Delete the ingress qdisc of a device. -/
  | qdiscDel (netdev : String)
  | recordWrite (record : InstallRecord)
  | recordRemove
  /-- Let started markers settle. -/
  | settle
  deriving DecidableEq

/-- Parts of a script in the order they run. -/
inductive Slot where
  | qdiscAdd
  | filterDel
  | filterAdd
  | neighSet
  | routeSet
  | markerStop
  | markerStart
  | routeDel
  | neighDel
  | qdiscDel
  | record
  deriving DecidableEq

/-- The slots in the order of a script. -/
def Slot.order : List Slot :=
  [.qdiscAdd, .filterDel, .filterAdd, .neighSet, .routeSet, .markerStop, .markerStart, .routeDel, .neighDel,
    .qdiscDel, .record]

/-- The slot of a command that belongs to a script's body. -/
def Command.slot : Command → Option Slot
  | .strict | .guard _ | .settle => none
  | .qdiscAdd _ => some .qdiscAdd
  | .filterDel .. => some .filterDel
  | .filterAdd _ => some .filterAdd
  | .neighReplace .. => some .neighSet
  | .routeReplace .. => some .routeSet
  | .markerStop _ => some .markerStop
  | .markerStart .. => some .markerStart
  | .routeDel .. => some .routeDel
  | .neighDel .. => some .neighDel
  | .qdiscDel _ => some .qdiscDel
  | .recordWrite _ | .recordRemove => some .record

/-- Why a command cannot be built or a comparison not be made. -/
inductive FabricError where
  /-- A value that is no IPv4 address. -/
  | notAddress (value : String)
  | notMac (value : String)
  /-- A value that is no fabric device. -/
  | notNetdev (value : String)
  | notDevice (value : String)
  /-- A host name that cannot be checked safely. -/
  | badHostname (value : String)
  /-- A marker without rules. -/
  | noRules (device : String)
  /-- A planned route with a device that has no place among the RDMA devices. -/
  | unlistedDevice (value : String)
  /-- A recorded qdisc of a device outside the fabric. -/
  | unknownKey (value : String)
  deriving DecidableEq

/-- The text after at most one newline at its end. -/
def withoutNewline (text : List Char) : List Char :=
  if text.getLast? = some '\n' then text.dropLast else text

/-- Two hexadecimal digits in lower case. -/
def hexPair (word : List Char) : Bool :=
  decide (word.length = 2) && word.all fun c => c.isDigit || ('a' ≤ c && c ≤ 'f')

/-- Six pairs of hexadecimal digits between colons. -/
def isMac (text : String) : Bool :=
  let pairs := (withoutNewline text.toLower.toList).splitOn ':'
  decide (pairs.length = 6) && pairs.all hexPair

/-- A letter or digit, then up to 62 letters, digits, dots, underlines and dashes. -/
def isHostname (text : String) : Bool :=
  match withoutNewline text.toList with
  | [] => false
  | first :: rest =>
    first.isAlphanum && decide (rest.length ≤ 62) &&
      rest.all fun c => c.isAlphanum || c = '_' || c = '.' || c = '-'

/-- Refuse a value that fails its check. -/
def require (ok : Bool) (error : FabricError) : Except FabricError Unit := if ok then .ok () else .error error

def requireIpv4 (value : String) : Except FabricError Unit :=
  require (ipv4Address value).isSome (.notAddress value)

/-- The value is a MAC address. -/
def requireMac (value : String) : Except FabricError Unit := require (isMac value) (.notMac value)

/-- The value is a fabric device. -/
def requireNetdev (roles : Roles) (value : String) : Except FabricError Unit :=
  require (decide (value ∈ fabricNetdevs roles)) (.notNetdev value)

def requireDevice (roles : Roles) (value : String) : Except FabricError Unit :=
  require (decide (value ∈ rdmaDevices roles)) (.notDevice value)

/-- Build a command: its values pass their checks. -/
def Command.build (roles : Roles) : Command → Except FabricError Unit
  | .guard hostname => require (isHostname hostname) (.badHostname hostname)
  | .qdiscAdd netdev | .qdiscDel netdev | .filterDel netdev _ _ => requireNetdev roles netdev
  | .filterAdd f => do
    requireNetdev roles f.inNetdev
    requireMac f.nextMac
    requireNetdev roles f.outNetdev
  | .neighReplace destination mac netdev => do
    requireIpv4 destination
    requireMac mac
    requireNetdev roles netdev
  | .neighDel destination netdev | .routeDel destination netdev _ _ => do
    requireIpv4 destination
    requireNetdev roles netdev
  | .routeReplace destination netdev source => do
    requireIpv4 destination
    requireNetdev roles netdev
    requireIpv4 source
  | .markerStart device rules => do
    rules.forM fun rule => requireIpv4 rule.1
    require (decide (rules ≠ [])) (.noRules device)
    requireDevice roles device
  | .strict | .markerStop _ | .recordWrite _ | .recordRemove | .settle => .ok ()

/-- The route a script sets. -/
def ownedRoute (destination netdev source : String) : RouteEntry where
  destination := destination
  prefixlen := 32
  dev := netdev
  source := some source
  scope := "link"
  protocol := some routeProtocol
  metric := 0
  gateway := none
  kind := "unicast"

/-- The neighbour a script sets. -/
def ownedNeighbour (destination mac netdev : String) : NeighbourEntry where
  destination := destination
  dev := netdev
  mac := mac.toLower
  states := ["PERMANENT"]
  protocol := some routeProtocol

/-- The filter a script adds. -/
def RelayFilter.entry (f : RelayFilter) : FilterEntry where
  pref := f.pref
  chain := 0
  kind := "flower"
  protocol := some f.protocol
  handle := some f.handle
  skipSw := true
  dstMac := some f.nextMac.toLower
  newType := some f.newType
  outDev := some f.outNetdev
  problem := none

/-- The route a replacement finds: the network's /32 route without a metric. -/
def RouteEntry.replacedBy (destination : String) (r : RouteEntry) : Bool :=
  decide (r.destination = destination ∧ r.prefixlen = 32 ∧ r.metric = 0)

/-- The routes a deletion fits: network and device, and the protocol and metric it names. -/
def RouteEntry.deletedBy (destination netdev : String) (protocol : Option ℕ) (metric : ℕ) (r : RouteEntry) : Bool :=
  decide (r.destination = destination ∧ r.prefixlen = 32 ∧ r.dev = netdev ∧
    (protocol = none ∨ r.protocol = protocol) ∧ (metric = 0 ∨ r.metric = metric))

/-- Replace the first entry that fits, or add one. -/
def replaceFirst {α : Type*} (fits : α → Bool) (a : α) : List α → List α
  | [] => [a]
  | b :: rest => if fits b then a :: rest else b :: replaceFirst fits a rest

/-- The filters a deletion fits. -/
def FilterEntry.deletedBy (pref : ℤ) (identity : Option (ℕ × ℕ)) (f : FilterEntry) : Bool :=
  decide (f.chain = 0 ∧ f.pref = pref) &&
    match identity with
    | none => true
    | some (protocol, handle) => decide (f.protocol = some protocol ∧ f.handle = some handle)

/-- Replacing the entry of a key leaves the keys distinct. -/
theorem replaceFirst_keys {α κ : Type*} [DecidableEq κ] {key : α → κ} {a : α} {l : List α} (hl : (l.map key).Nodup) :
    ((replaceFirst (fun b => decide (key b = key a)) a l).map key).Nodup ∧
      ∀ b ∈ replaceFirst (fun b => decide (key b = key a)) a l, key b = key a ∨ key b ∈ l.map key := by
  induction l with
  | nil => simp [replaceFirst]
  | cons b l ih =>
    obtain ⟨hfresh, hrest⟩ := List.nodup_cons.mp hl
    by_cases hb : key b = key a
    · rw [replaceFirst, if_pos (decide_eq_true hb)]
      refine ⟨List.nodup_cons.mpr ⟨hb ▸ hfresh, hrest⟩, fun c hc => ?_⟩
      obtain rfl | hc := List.mem_cons.mp hc
      · exact .inl rfl
      · exact .inr (List.mem_cons_of_mem _ (List.mem_map_of_mem hc))
    rw [replaceFirst, if_neg (by simpa using hb)]
    obtain ⟨hn, hmem⟩ := ih hrest
    refine ⟨List.nodup_cons.mpr ⟨fun hin => ?_, hn⟩, fun c hc => ?_⟩
    · obtain ⟨c, hc, hcb⟩ := List.mem_map.mp hin
      exact (hmem c hc).elim (fun h => hb (hcb.symm.trans h)) (fun h => hfresh (hcb ▸ h))
    obtain rfl | hc := List.mem_cons.mp hc
    · exact .inr (List.mem_cons_self ..)
    · exact (hmem c hc).imp_right (List.mem_cons_of_mem _)

namespace Host

/-- Set a neighbour: the entry of its address and device, or a new one. -/
def setNeighbour (host : Host) (n : NeighbourEntry) : Host :=
  { host with
    neighbours := replaceFirst (fun m => decide (m.key = n.key)) n host.neighbours
    neighbours_distinct := (replaceFirst_keys host.neighbours_distinct).1 }

/-- Delete the neighbour of an address and device. -/
def dropNeighbour (host : Host) (key : String × String) : Host :=
  { host with
    neighbours := host.neighbours.filter fun m => decide (m.key ≠ key)
    neighbours_distinct := host.neighbours_distinct.sublist (List.filter_sublist.map _) }

/-- What a command changes. One whose object is missing changes nothing, and the
script stops there. -/
def exec (host : Host) : Command → Host
  | .qdiscAdd netdev =>
    { host with
      ingressQdisc :=
        Function.update host.ingressQdisc netdev (some ((host.ingressQdisc netdev).getD .ingress)) }
  | .filterDel netdev pref identity =>
    { host with
      filters := Function.update host.filters netdev
        ((host.filters netdev).filter fun f => !f.deletedBy pref identity) }
  | .filterAdd f =>
    { host with filters := Function.update host.filters f.inNetdev (host.filters f.inNetdev ++ [f.entry]) }
  | .neighReplace destination mac netdev => host.setNeighbour (ownedNeighbour destination mac netdev)
  | .routeReplace destination netdev source =>
    { host with
      routes :=
        replaceFirst (RouteEntry.replacedBy destination) (ownedRoute destination netdev source) host.routes }
  | .markerStop pid => { host with markers := host.markers.filter fun p => decide (p.pid ≠ pid) }
  | .routeDel destination netdev protocol metric =>
    { host with routes := host.routes.eraseP (RouteEntry.deletedBy destination netdev protocol metric) }
  | .neighDel destination netdev => host.dropNeighbour (destination, netdev)
  | .qdiscDel netdev =>
    { host with
      ingressQdisc := Function.update host.ingressQdisc netdev none
      filters := Function.update host.filters netdev [] }
  | .recordWrite record => { host with record := some record }
  | .recordRemove => { host with record := none }
  | .strict | .guard _ | .markerStart .. | .settle => host

/-- The Spark after some commands. -/
def run (host : Host) (commands : List Command) : Host := commands.foldl exec host

end Host

end SparkRing.Relay
