import SparkRing.OrderedDict
import SparkRing.RelayCommands

/-!
# The comparison of a Spark with its plan

Going up compares every filter, route, neighbour and marker of a Spark with its
group's plan; going down removes what the installer owns. Both list changes and
blockers and build the script that reconciles the Spark. The parts emit commands in
the order they are compared; the script sorts them into its slots.
-/

namespace SparkRing.Relay

open OrderedDict
open Routes (Roles)

/-- What happens to an object. -/
inductive Action where
  | add
  | remove
  | replace
  | mark
  | keep
  | write
  deriving DecidableEq

/-- The object of a change. -/
inductive Subject where
  | route (destination : String)
  | neighbour (destination netdev : String)
  | filter (netdev : String) (pref : ℤ)
  | qdisc (netdev : String)
  | marker (device : String)
  | markerProcess (pid : ℕ)
  | record
  deriving DecidableEq

/-- One change of a comparison. -/
structure Change where
  /-- What happens. -/
  action : Action
  /-- To which object. -/
  subject : Subject
  /-- The object has no ownership mark. -/
  unowned : Bool
  deriving DecidableEq

/-- Why a comparison must not be applied. -/
inductive Blocker where
  /-- The Spark was not read. -/
  | unreachable (error : String)
  /-- A section did not parse. -/
  | read (problem : String)
  /-- The host has another name than the site lists. -/
  | hostname (found listed : String)
  /-- The record is unreadable. -/
  | record (problem : String)
  /-- The record names another group. -/
  | otherGroup (group layout : Option String)
  | foreignRoute (destination : String) (held : RouteEntry)
  /-- Markers start and their executable is missing. -/
  | markerMissing (path : String)
  deriving DecidableEq

/-- The comparison of one Spark. -/
structure SparkDiff where
  /-- Changes in the order they were found. -/
  changes : List Change
  /-- Why it must not be applied. -/
  blockers : List Blocker
  /-- Filters outside the reserved preferences that match a relay tag. -/
  notes : List FilterEntry
  /-- The apply script. -/
  commands : List Command
  /-- Changes of unowned objects that need consent. -/
  needsAdopt : Option ℕ

namespace SparkDiff

/-- The comparison must not be applied. -/
def blocked (diff : SparkDiff) : Bool := !diff.blockers.isEmpty || diff.needsAdopt.isSome

/-- A comparison that stopped before any object. -/
def stopped (blockers : List Blocker) : SparkDiff := ⟨[], blockers, [], [], none⟩

end SparkDiff

/-- Changes of one part of a comparison and the commands it emits. -/
structure Part where
  changes : List Change
  emitted : List Command

namespace Part

/-- Nothing to do. -/
def nothing : Part := ⟨[], []⟩

/-- Parts one after the other. -/
def all (parts : List Part) : Part := ⟨parts.flatMap Part.changes, parts.flatMap Part.emitted⟩

end Part

def scriptBody (emitted : List Command) : List Command :=
  Slot.order.flatMap fun slot => emitted.filter fun c => decide (c.slot = some slot)

def scriptLines (hostname : String) (emitted : List Command) : List Command :=
  if scriptBody emitted = [] then []
  else
    .strict :: .guard hostname :: scriptBody emitted ++
      if emitted.any fun c => decide (c.slot = some .markerStart) then [.settle] else []

/-- Blockers of every comparison with a Spark that was read. -/
def commonBlockers (state : HostState) (group : String) (checkHostname : Bool) : List Blocker :=
  state.parseProblems.map Blocker.read ++
    (if checkHostname ∧ state.hostname ≠ state.name then [.hostname state.hostname state.name] else []) ++
    (match state.recordProblem with
      | none => []
      | some problem => [.record problem]) ++
    match state.record with
    | none => []
    | some record => if record.group ≠ some group then [.otherGroup record.group record.layout] else []

/-- The changes of unowned objects, when there are any and nobody consented. -/
def adoptBlocker (changes : List Change) (adopt : Bool) : Option ℕ :=
  let unowned := changes.filter fun c => c.unowned && decide (c.action ≠ .keep)
  if unowned ≠ [] ∧ adopt = false then some unowned.length else none

def atPref (entries : List FilterEntry) (pref : ℤ) : List FilterEntry :=
  entries.filter fun f => decide (f.pref = pref)

/-- Delete the filters of one preference. -/
def filterRemoval (netdev : String) (pref : ℤ) : List FilterEntry → List Command
  | [⟨_, _, _, some protocol, some handle, _, _, _, _, _⟩] => [.filterDel netdev pref (some (protocol, handle))]
  | _ => [.filterDel netdev pref none]

/-- The one filter of a preference is the planned one. -/
def filterKept (planned : Option RelayFilter) (entries : List FilterEntry) : Bool :=
  match planned, entries with
  | some f, [entry] => entry.matches f
  | _, _ => false

/-- Compare the filters of one preference with the planned one. -/
def filterPart (netdev : String) (pref : ℤ) (planned : Option RelayFilter) (entries : List FilterEntry) : Part :=
  match planned with
  | some f =>
    if filterKept (some f) entries then ⟨[⟨.keep, .filter netdev pref, false⟩], []⟩
    else
      ⟨[⟨if entries = [] then .add else .replace, .filter netdev pref, false⟩],
        (if entries = [] then [] else filterRemoval netdev pref entries) ++ [.filterAdd f]⟩
  | none =>
    if entries = [] then .nothing
    else ⟨[⟨.remove, .filter netdev pref, false⟩], filterRemoval netdev pref entries⟩

/-- The filter a plan puts at a preference of a device; the last one listed counts. -/
def SparkPlan.filterAt (spark : SparkPlan) (netdev : String) (pref : ℤ) : Option RelayFilter :=
  (spark.filters.filter fun f => decide (f.inNetdev = netdev ∧ f.pref = pref)).getLast?

/-- The plan has a filter on the device. -/
def SparkPlan.filters? (spark : SparkPlan) (netdev : String) : Bool :=
  spark.filters.any fun f => decide (f.inNetdev = netdev)

/-- Compare the filters of a device: planned preferences first, then the others. -/
def devicePart (state : HostState) (planned : ℤ → Option RelayFilter) (netdev : String) : Part :=
  .all (((reservedPrefs.filter fun pref => (planned pref).isSome) ++
      (reservedPrefs.filter fun pref => (planned pref).isNone)).map fun pref =>
    filterPart netdev pref (planned pref) (atPref (state.reservedFilters netdev) pref))

/-- Filters of a device the script deletes. -/
def removedFilters (state : HostState) (planned : ℤ → Option RelayFilter) (netdev : String) : ℕ :=
  (reservedPrefs.map fun pref =>
    let entries := atPref (state.reservedFilters netdev) pref
    if filterKept (planned pref) entries then 0 else entries.length).sum

/-- A device gets the ingress qdisc its planned filters need. -/
def qdiscAdded (state : HostState) (spark : SparkPlan) (netdev : String) : Bool :=
  spark.filters? netdev && (state.ingressQdisc netdev).isNone

/-- The qdisc of a device and its filters. -/
def filtersUp (state : HostState) (spark : SparkPlan) (netdev : String) : Part :=
  .all [if qdiscAdded state spark netdev then ⟨[⟨.add, .qdisc netdev, false⟩], [.qdiscAdd netdev]⟩ else .nothing,
    devicePart state (spark.filterAt netdev) netdev]

/-- The planned routes by destination; the last one listed for a destination counts. -/
def SparkPlan.plannedRoutes (spark : SparkPlan) : Dict String OriginRoute :=
  spark.routes.foldl (fun planned route => planned.set route.destination route) .empty

/-- A route is the planned one, its mark aside. -/
def routeEqual (destination netdev source : String) (r : RouteEntry) : Bool :=
  decide (r.dev = netdev ∧ r.source = some source ∧ r.scope = "link" ∧ r.gateway.getD "" = "" ∧ r.metric = 0 ∧
    r.kind = "unicast" ∧ r.destination = destination)

/-- Delete a route. -/
def routeRemoval (r : RouteEntry) : Command := .routeDel r.destination r.dev r.protocol r.metric

def HostState.hostRoutes (state : HostState) (destination : String) : List RouteEntry :=
  state.routes.filter fun r => decide (r.prefixlen = 32 ∧ r.destination = destination)

/-- Routes of a destination that may be changed. -/
def HostState.candidates (state : HostState) (roles : Roles) (destination : String) : List RouteEntry :=
  (state.hostRoutes destination).filter fun r => r.owned || state.isRelayRoute roles r

/-- Routes of a destination that are never touched. -/
def HostState.foreign (state : HostState) (roles : Roles) (destination : String) : List RouteEntry :=
  (state.hostRoutes destination).filter fun r => !(r.owned || state.isRelayRoute roles r)

def removeRoutes (routes : List RouteEntry) : Part :=
  ⟨routes.map fun r => ⟨.remove, .route r.destination, !r.owned⟩, routes.map routeRemoval⟩

/-- The route that is kept, marked or rewritten in place. -/
def inPlace (candidates : List RouteEntry) (destination netdev source : String) : Option RouteEntry :=
  (candidates.find? (routeEqual destination netdev source)).or (candidates.find? fun r => decide (r.metric = 0))

/-- Compare the routes of a planned destination that may be changed with the plan. -/
def routePart (candidates : List RouteEntry) (destination : String) (route : OriginRoute) : Part :=
  let set := Command.routeReplace destination route.netdev route.source
  let kept := inPlace candidates destination route.netdev route.source
  .all [removeRoutes ((kept.map candidates.erase).getD candidates),
    match candidates.find? (routeEqual destination route.netdev route.source) with
    | some equal =>
      if equal.owned then ⟨[⟨.keep, .route destination, false⟩], []⟩
      else ⟨[⟨.mark, .route destination, true⟩], [set]⟩
    | none =>
      match kept with
      | some r => ⟨[⟨.replace, .route destination, !r.owned⟩], [set]⟩
      | none => ⟨[⟨.add, .route destination, false⟩], [set]⟩]

/-- A route that is never touched holds a planned destination. -/
def routeBlockers (state : HostState) (roles : Roles) (destination : String) : List Blocker :=
  match state.foreign roles destination with
  | [] => []
  | held :: _ => [.foreignRoute destination held]

/-- The routes of every planned destination that is free of other routes. -/
def routesUp (state : HostState) (roles : Roles) (spark : SparkPlan) : Part :=
  .all (spark.plannedRoutes.items.map fun item =>
    if state.foreign roles item.1 = [] then routePart (state.candidates roles item.1) item.1 item.2 else .nothing)

/-- Relay routes to destinations without a plan. -/
def HostState.staleRoutes (state : HostState) (roles : Roles) (spark : SparkPlan) : List RouteEntry :=
  (state.relayRoutes roles).filter fun r => decide (r.destination ∉ spark.plannedRoutes.keys)

/-- The planned neighbours by address and device. -/
def SparkPlan.plannedNeighbours (spark : SparkPlan) : Dict (String × String) String :=
  spark.routes.foldl (fun planned route => planned.set (route.destination, route.netdev) route.nextMac) .empty

/-- The relay neighbour of an address and device. -/
def HostState.presentNeighbour (state : HostState) (roles : Roles) (key : String × String) : Option NeighbourEntry :=
  (state.relayNeighbours roles).find? fun n => decide (n.key = key)

/-- Compare the relay neighbour of a planned address and device with the plan. -/
def neighbourPart (present : Option NeighbourEntry) (key : String × String) (mac : String) : Part :=
  let set := Command.neighReplace key.1 mac key.2
  match present with
  | some n =>
    if n.mac = mac.toLower then
      if n.owned then ⟨[⟨.keep, .neighbour key.1 key.2, false⟩], []⟩
      else ⟨[⟨.mark, .neighbour key.1 key.2, true⟩], [set]⟩
    else ⟨[⟨.replace, .neighbour key.1 key.2, !n.owned⟩], [set]⟩
  | none => ⟨[⟨.add, .neighbour key.1 key.2, false⟩], [set]⟩

def removeNeighbours (neighbours : List NeighbourEntry) : Part :=
  ⟨neighbours.map fun n => ⟨.remove, .neighbour n.destination n.dev, !n.owned⟩,
    neighbours.map fun n => .neighDel n.destination n.dev⟩

/-- The order of addresses and devices as texts. -/
def keyLe (a b : NeighbourEntry) : Bool :=
  decide (a.destination < b.destination ∨ a.destination = b.destination ∧ a.dev ≤ b.dev)

/-- Relay neighbours without a plan, in the order of their keys. -/
def HostState.staleNeighbours (state : HostState) (roles : Roles) (spark : SparkPlan) : List NeighbourEntry :=
  ((state.relayNeighbours roles).filter fun n =>
    decide (n.key ∉ spark.plannedNeighbours.keys)).insertionSort fun a b => keyLe a b

/-- Neighbours of planned destinations, then those without a plan. -/
def neighboursUp (state : HostState) (roles : Roles) (spark : SparkPlan) : Part :=
  .all [.all (spark.plannedNeighbours.items.map fun item =>
      neighbourPart (state.presentNeighbour roles item.1) item.1 item.2),
    removeNeighbours (state.staleNeighbours roles spark)]

/-- The order of rules: addresses by value, then other texts. -/
def addressLe (a b : String × ℕ) : Bool :=
  match ipv4Address a.1, ipv4Address b.1 with
  | some x, some y => decide (x.toNat ≤ y.toNat)
  | some _, none => true
  | none, some _ => false
  | none, none => decide (a.1 ≤ b.1)

/-- The rules a plan gives the marker of a device. -/
def SparkPlan.markerRules (spark : SparkPlan) (device : String) : List (String × ℕ) :=
  ((spark.routes.filter fun route => decide (route.device = device)).map fun route =>
    (route.destination, route.tag)).insertionSort fun a b => addressLe a b

/-- Compare the markers of a device with its rules. -/
def markerPart (markers : List MarkerProcess) (rules : String → List (String × ℕ)) (device : String) : Part :=
  let present := markers.filter fun p => decide (p.device = some device)
  let stops := present.map fun p => Command.markerStop p.pid
  if rules device = [] then
    if present = [] then .nothing else ⟨[⟨.remove, .marker device, false⟩], stops⟩
  else if present.length = 1 ∧ present.all fun p =>
      decide (p.rules = (rules device).toFinset) && p.managed && p.problem.isNone then
    ⟨[⟨.keep, .marker device, false⟩], []⟩
  else
    ⟨[⟨if present = [] then .add else .replace, .marker device, false⟩],
      stops ++ [.markerStart device (rules device)]⟩

/-- The markers of every device, and processes of none of them. -/
def markersPart (roles : Roles) (state : HostState) (rules : String → List (String × ℕ)) : Part :=
  let handled := (state.markers.filter fun p =>
    decide (∃ device ∈ rdmaDevices roles, p.device = some device)).map MarkerProcess.pid
  let others := state.markers.filter fun p => decide (p.pid ∉ handled)
  .all [.all ((rdmaDevices roles).map (markerPart state.markers rules)),
    ⟨others.map fun p => ⟨.remove, .markerProcess p.pid, false⟩, others.map fun p => .markerStop p.pid⟩]

/-- Markers start and their executable is missing. -/
def markerBlockers (state : HostState) (markers : Part) (marker : MarkerConfig) : List Blocker :=
  if (markers.emitted.any fun c => decide (c.slot = some .markerStart)) ∧ state.markerBinary = none then
    [.markerMissing marker.path]
  else []

/-- Names in order, each once. -/
def sortedNames (names : List String) : List String := names.dedup.insertionSort fun a b => decide (a ≤ b)

def recordedQdiscs (record : Option InstallRecord) : List String :=
  match record with
  | none => []
  | some r => r.qdiscs.getD []

/-- A recorded qdisc goes when the plan needs no filter there and none remains. -/
def qdiscRemoved (state : HostState) (needed : String → Bool) (removed : String → ℕ) (netdev : String) : Bool :=
  !needed netdev && decide ((state.filters netdev).length ≤ removed netdev) &&
    decide (state.ingressQdisc netdev = some .ingress)

/-- Removal of recorded qdiscs. -/
def removeQdiscs (netdevs : List String) : Part :=
  ⟨netdevs.map fun netdev => ⟨.remove, .qdisc netdev, false⟩, netdevs.map Command.qdiscDel⟩

/-- The record of a Spark that holds its plan. -/
def wantedRecord (spark : SparkPlan) (plan : GroupPlan) (layoutName : String) (marker : MarkerConfig)
    (qdiscs : List String) : InstallRecord where
  spark := some spark.name
  position := some spark.position
  layout := some layoutName
  group := some plan.group
  members := some plan.members
  relayEgress := some plan.relayEgress
  plan := some plan.digest
  marker := some marker.path
  qdiscs := some qdiscs

/-- Filters outside the reserved preferences that match a relay tag. -/
def HostState.foreignTagFilters (state : HostState) (roles : Roles) : List FilterEntry :=
  (fabricNetdevs roles).flatMap fun netdev => (state.filters netdev).filter fun f =>
    !f.reserved && match f.protocol with
      | none => false
      | some p => decide (p ≠ ethPIp) && (relaysLeft p).isSome

/-- Build every emitted command, the first one first. -/
def buildAll (roles : Roles) (commands : List Command) : Except FabricError Unit :=
  commands.forM (Command.build roles)

/-- Close a comparison: consent, then the script for the host if a change is pending. -/
def finish (roles : Roles) (hostname : String) (adopt : Bool) (blockers : List Blocker) (notes : List FilterEntry)
    (part : Part) : Except FabricError SparkDiff := do
  let commands :=
    if part.changes.any fun c => decide (c.action ≠ .keep) then scriptLines hostname part.emitted else []
  if commands ≠ [] then Command.build roles (.guard hostname)
  return ⟨part.changes, blockers, notes, commands, adoptBlocker part.changes adopt⟩

/-- Recorded qdiscs of the group; a record of another group counts for none. -/
def recordedFor (state : HostState) (plan : GroupPlan) : List String :=
  recordedQdiscs (state.record.filter fun r => decide (r.group = some plan.group))

/-- Every part of the way up before the qdiscs and the record. -/
def objectsUp (roles : Roles) (state : HostState) (spark : SparkPlan) : Part :=
  .all [.all ((fabricNetdevs roles).map (filtersUp state spark)), routesUp state roles spark,
    removeRoutes (state.staleRoutes roles spark), neighboursUp state roles spark]

/-- The recorded qdiscs that go on the way up. -/
def qdiscsUp (state : HostState) (spark : SparkPlan) (plan : GroupPlan) : List String :=
  (sortedNames (recordedFor state plan)).filter (qdiscRemoved state spark.filters? fun netdev =>
    removedFilters state (spark.filterAt netdev) netdev)

/-- The record after the way up. -/
def recordUp (roles : Roles) (state : HostState) (spark : SparkPlan) (plan : GroupPlan) (layoutName : String)
    (marker : MarkerConfig) : InstallRecord :=
  wantedRecord spark plan layoutName marker
    ((sortedNames ((fabricNetdevs roles).filter (qdiscAdded state spark) ++ recordedFor state plan)).filter
      fun netdev => decide (netdev ∉ qdiscsUp state spark plan))

/-- What installing a group's plan changes on one Spark. -/
def compareUp (roles : Roles) (state : HostState) (spark : SparkPlan) (plan : GroupPlan) (layoutName : String)
    (marker : MarkerConfig) (adopt checkHostname : Bool) : Except FabricError SparkDiff :=
  if state.reachable = false then .ok (.stopped [.unreachable state.error])
  else do
    let objects := objectsUp roles state spark
    buildAll roles objects.emitted
    spark.routes.forM fun route =>
      require (decide (route.device ∈ rdmaDevices roles)) (.unlistedDevice route.device)
    let markers := markersPart roles state spark.markerRules
    buildAll roles markers.emitted
    (sortedNames (recordedFor state plan)).forM fun netdev =>
      require (decide (netdev ∈ fabricNetdevs roles)) (.unknownKey netdev)
    let record := recordUp roles state spark plan layoutName marker
    let written : Part := if state.record = some record then .nothing
      else ⟨[⟨.write, .record, false⟩], [.recordWrite record]⟩
    finish roles spark.name adopt
      (commonBlockers state plan.group checkHostname ++
        spark.plannedRoutes.keys.flatMap (routeBlockers state roles) ++ markerBlockers state markers marker)
      (state.foreignTagFilters roles)
      (.all [objects, markers, removeQdiscs (qdiscsUp state spark plan), written])

/-- Every object the way down removes before the qdiscs and the record. -/
def objectsDown (roles : Roles) (state : HostState) : Part :=
  .all [.all ((fabricNetdevs roles).map (devicePart state fun _ => none)),
    removeRoutes (state.relayRoutes roles), removeNeighbours (state.relayNeighbours roles)]

/-- The recorded qdiscs that go on the way down. -/
def qdiscsDown (roles : Roles) (state : HostState) : List String :=
  (sortedNames (recordedQdiscs state.record)).filter (qdiscRemoved state (fun _ => false) fun netdev =>
    if netdev ∈ fabricNetdevs roles then removedFilters state (fun _ => none) netdev else 0)

/-- What the way down removes from one Spark of a group. -/
def compareDown (roles : Roles) (state : HostState) (group : String) (marker : MarkerConfig)
    (adopt checkHostname : Bool) : Except FabricError SparkDiff :=
  if state.reachable = false then .ok (.stopped [.unreachable state.error])
  else do
    let objects := objectsDown roles state
    buildAll roles objects.emitted
    let markers := markersPart roles state fun _ => []
    let removed : Part := if state.record = none then .nothing
      else ⟨[⟨.remove, .record, false⟩], [.recordRemove]⟩
    buildAll roles (removeQdiscs (qdiscsDown roles state)).emitted
    finish roles state.name adopt
      (commonBlockers state group checkHostname ++ markerBlockers state markers marker) []
      (.all [objects, markers, removeQdiscs (qdiscsDown roles state), removed])

end SparkRing.Relay
