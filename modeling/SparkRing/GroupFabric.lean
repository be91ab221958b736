import SparkRing.FabricRoutes

/-!
# Groups on the fabric

A vLLM group sits on positions of the physical fabric. A top-level group owns the
cables between its members, a subgroup routes over its parent's. From the cables
follow what NCCL may do on the group and the lanes between its ranks.
-/

namespace SparkRing.GroupFabric

open BreadthFirst
open Routes (Port Roles)

/-- Names of collectives and transfers. -/
inductive Operation
  | allReduce
  | allGather
  | allGatherIntoTensor
  | reduceScatter
  | reduceScatterTensor
  | broadcast
  | reduce
  | barrier
  | allGatherObject
  | allReduceCoalesced
  | allGatherCoalesced
  | allGatherv
  | reduceScatterv
  | gather
  | scatter
  | allToAll
  | send
  | recv
  | isend
  | irecv
  | batchIsendIrecv
  deriving DecidableEq

/-- An operation as the source writes it. -/
def Operation.text : Operation → String
  | .allReduce => "all_reduce"
  | .allGather => "all_gather"
  | .allGatherIntoTensor => "all_gather_into_tensor"
  | .reduceScatter => "reduce_scatter"
  | .reduceScatterTensor => "reduce_scatter_tensor"
  | .broadcast => "broadcast"
  | .reduce => "reduce"
  | .barrier => "barrier"
  | .allGatherObject => "all_gather_object"
  | .allReduceCoalesced => "all_reduce_coalesced"
  | .allGatherCoalesced => "all_gather_coalesced"
  | .allGatherv => "all_gatherv"
  | .reduceScatterv => "reduce_scatterv"
  | .gather => "gather"
  | .scatter => "scatter"
  | .allToAll => "all_to_all"
  | .send => "send"
  | .recv => "recv"
  | .isend => "isend"
  | .irecv => "irecv"
  | .batchIsendIrecv => "batch_isend_irecv"

/-- Operations that connect every rank to its ring neighbours only. -/
def ringOperations : List Operation :=
  [.allReduce, .allGather, .allGatherIntoTensor, .reduceScatter, .reduceScatterTensor, .broadcast, .reduce,
    .barrier, .allGatherObject, .allReduceCoalesced, .allGatherCoalesced]

/-- What NCCL may do on a group. -/
inductive NcclPolicy
  /-- Every pair of members shares a cable. -/
  | all
  /-- Consecutive members share cables, last to first included. -/
  | ring
  /-- Some consecutive pair shares no cable. -/
  | none
  deriving DecidableEq

/-- A policy as the source writes it. -/
def NcclPolicy.value : NcclPolicy → String
  | .all => "all"
  | .ring => "ring"
  | .none => "none"

/-- NCCL may run an operation on a group of this policy. -/
def NcclPolicy.allows (policy : NcclPolicy) (operation : Operation) : Bool :=
  match policy with
  | .all => true
  | .none => false
  | .ring => decide (operation ∈ ringOperations)

/-- A cable between ports of two positions. -/
structure Cable where
  /-- Position of one end. -/
  a : ℤ
  /-- Port of that end. -/
  aPort : Port
  /-- Position of the other end. -/
  b : ℤ
  /-- Port of the other end. -/
  bPort : Port
  deriving DecidableEq

/-- A cable as it is written. -/
def Cable.label (cable : Cable) : String := s!"{cable.a}.port{cable.aPort}-{cable.b}.port{cable.bPort}"

/-- A cable joins two positions. -/
def Cable.joins (cable : Cable) (a b : ℤ) : Bool :=
  decide ((a = cable.a ∧ b = cable.b) ∨ (a = cable.b ∧ b = cable.a))

/-- Port of a position on a cable: the egress of a relay. -/
def Cable.portAt (cable : Cable) (position : ℤ) : Except String Port :=
  if cable.a = position then .ok cable.aPort
  else if cable.b = position then .ok cable.bPort
  else .error s!"position {position} is not an end of cable {cable.label}"

/-- The physical fabric. -/
inductive Layout
  /-- A ring of Sparks, port 0 of each cabled to port 1 of the next. -/
  | ring (size : ℕ) (h : 2 ≤ size)
  /-- The same without the closing cable. -/
  | path (size : ℕ) (h : 2 ≤ size)
  /-- Two Sparks with one cable, or with two. -/
  | pair (doubled : Bool)
  deriving DecidableEq

local instance twoPorts : NeZero 2 := ⟨two_ne_zero⟩

namespace Layout

/-- A ring, unless it is too small. -/
def ofRing (size : ℕ) : Except String Layout :=
  if h : 2 ≤ size then .ok (.ring size h) else .error "a ring needs at least two Sparks"

/-- A path, unless it is too small. -/
def ofPath (size : ℕ) : Except String Layout :=
  if h : 2 ≤ size then .ok (.path size h) else .error "a path needs at least two Sparks"

/-- A pair with one or two cables. -/
def ofPair (cables : ℕ) : Except String Layout :=
  if cables = 1 then .ok (.pair false)
  else if cables = 2 then .ok (.pair true)
  else .error "a pair has one or two cables"

/-- Sparks of a layout. -/
def size : Layout → ℕ
  | ring size _ => size
  | path size _ => size
  | pair _ => 2

/-- The cable from port 0 of a position to port 1 of another. -/
def link (a b : ℤ) : Cable := ⟨a, 0, b, 1⟩

def cables : Layout → List Cable
  | ring size _ => (List.range size).map fun i : ℕ => link i (((i + 1) % size : ℕ) : ℤ)
  | path size _ => (List.range (size - 1)).map fun i : ℕ => link i ((i + 1 : ℕ) : ℤ)
  | pair false => [⟨0, 0, 1, 0⟩]
  | pair true => [⟨0, 0, 1, 0⟩, ⟨0, 1, 1, 1⟩]

/-- A layout as it is written. -/
def describe : Layout → String
  | ring size _ => s!"ring:{size}"
  | path size _ => s!"path:{size}"
  | pair doubled => if doubled then "pair:2" else "pair:1"

end Layout

/-- Shapes of a fabric. -/
inductive FabricKind
  | cycle
  | path
  | pair
  | ring
  deriving DecidableEq

/-- A shape as it is written. -/
def FabricKind.text : FabricKind → String
  | .cycle => "cycle"
  | .path => "path"
  | .pair => "pair"
  | .ring => "ring"

/-- The positions and cables a group may route over. -/
structure Fabric where
  /-- Its shape. -/
  kind : FabricKind
  /-- Positions in cabling order. -/
  order : List ℤ
  cables : List Cable
  deriving DecidableEq

/-- Some cable of a fabric joins two positions. -/
def Fabric.adjacent (fabric : Fabric) (a b : ℤ) : Bool := fabric.cables.any fun cable => cable.joins a b

/-- A fabric as messages name it. -/
def Fabric.describe (fabric : Fabric) : String :=
  fabric.kind.text ++ ":" ++ "-".intercalate (fabric.order.map toString)

/-- Members of a group sit on different positions of the layout. -/
def checkPositions (layout : Layout) (members : List ℤ) : Except String Unit :=
  if ¬members.Nodup then .error s!"group positions {members} repeat a Spark"
  else
    let outside := members.filter fun p : ℤ => ¬(0 ≤ p ∧ p < (layout.size : ℤ))
    if outside ≠ [] then .error s!"positions {outside} are outside the {layout.describe} layout" else .ok ()

def Layout.positions (layout : Layout) : List ℤ := (List.range layout.size).map Nat.cast

/-- Consecutive positions of a layout, the first after the last. -/
def Layout.arc (layout : Layout) (start count : ℕ) : List ℤ :=
  (List.range count).map fun step : ℕ => (((start + step) % layout.size : ℕ) : ℤ)

/-- The cables between consecutive positions of an arc, in its order. -/
def Layout.owned (layout : Layout) (arc : List ℤ) : List Cable :=
  (arc.zip arc.tail).flatMap fun entry => layout.cables.filter fun cable => cable.joins entry.1 entry.2

/-- The fabric of an arc that holds a group. -/
def Layout.arcFabric (layout : Layout) (arc : List ℤ) : Fabric :=
  ⟨if arc.length = 2 then .pair else .path, arc, layout.owned arc⟩

/-- The first arc of a group's members. -/
def Layout.findArc (layout : Layout) (members : List ℤ) (starts : ℕ) : Option (List ℤ) :=
  ((List.range starts).map fun start => layout.arc start members.length).find? fun arc =>
    decide (arc ⊆ members ∧ members ⊆ arc)

/-- The refusal of members that are no path and no cycle. -/
def Layout.scattered (layout : Layout) (members : List ℤ) : String :=
  s!"positions {members} are not consecutive Sparks of the {layout.describe} layout; a group owns the cables between its members and needs them to form a path or a cycle"

/-- The fabric of an arc of the layout that holds the members. -/
def Layout.ofArc (layout : Layout) (members : List ℤ) (starts : ℕ) : Except String Fabric :=
  match layout.findArc members starts with
  | some arc => .ok (layout.arcFabric arc)
  | none => .error (layout.scattered members)

/-- The fabric a top-level group owns: its members must be a path or a cycle of the layout. -/
def groupFabric (layout : Layout) (members : List ℤ) : Except String Fabric := do
  checkPositions layout members
  if members.length = 1 then .ok ⟨.path, members, []⟩
  else
    match layout with
    | .pair _ => .ok ⟨.pair, [0, 1], layout.cables⟩
    | .ring size _ =>
      if members ⊆ layout.positions ∧ layout.positions ⊆ members then
        .ok ⟨if 3 ≤ size then .cycle else .pair, layout.positions, layout.cables⟩
      else layout.ofArc members size
    | .path size _ => layout.ofArc members (size + 1 - members.length)

/-- The two functions of a port. -/
inductive FunctionClass
  | primary
  | secondary
  deriving DecidableEq

/-- One lane of a rank toward a peer. -/
structure Lane where
  peer : ℕ
  /-- The lane. -/
  index : ℕ
  /-- Local port it leaves through. -/
  port : Port
  functionClass : FunctionClass
  /-- Port of the peer it arrives on. -/
  remotePort : Port
  /-- Sparks along the lane, the origin first. -/
  positions : List ℤ
  /-- Cables along the lane. -/
  cables : List Cable
  deriving DecidableEq

/-- Cables a lane crosses. -/
def Lane.hops (lane : Lane) : ℕ := lane.cables.length

/-- Sparks a lane passes through. -/
def Lane.relays (lane : Lane) : List ℤ := lane.positions.tail.dropLast

/-- One cable crossed from a port to a port. -/
structure Step where
  /-- Position it is left at. -/
  src : ℤ
  /-- Port it is left through. -/
  srcPort : Port
  /-- Position it leads to. -/
  dst : ℤ
  /-- Port it arrives on. -/
  dstPort : Port
  cable : Cable
  deriving DecidableEq

namespace Fabric

variable (fabric : Fabric)

/-- The cables of a position, in the order of the fabric's. -/
def links (here : ℤ) : List Step :=
  fabric.cables.flatMap fun cable =>
    (if cable.a = here then [⟨here, cable.aPort, cable.b, cable.bPort, cable⟩] else []) ++
      if cable.b = here then [⟨here, cable.bPort, cable.a, cable.aPort, cable⟩] else []

/-- Positions one cable away. -/
def neighbours (here : ℤ) : List ℤ := (fabric.links here).map Step.dst

/-- Distance to a position of every position that reaches it. -/
def distances (destination : ℤ) : Option (Distances ℤ) :=
  search fabric.neighbours (2 * fabric.cables.length + 1) [destination] (start destination)

/-- Paths along falling distances, from a position at distance `n`, each after `steps`. -/
def extend (destination : ℤ) (distance : Distances ℤ) : ℕ → ℤ → List Step → List (List Step)
  | 0, node, steps => if node = destination then [steps] else []
  | n + 1, node, steps =>
    if node = destination then [steps]
    else (fabric.links node).flatMap fun step =>
      if distance step.dst = some n then extend destination distance n step.dst (steps ++ [step]) else []

/-- Every shortest path between two positions. -/
def shortestPaths (origin destination : ℤ) : List (List Step) :=
  match fabric.distances destination with
  | none => []
  | some distance =>
    match distance origin with
    | none => []
    | some n => fabric.extend destination distance n origin []

end Fabric

/-- Path A leaves the end with the smaller position through its port 0; seen from the
larger end it arrives there on port 0. -/
def isA (origin destination : ℤ) (path : List Step) : Bool :=
  if origin < destination then path.head?.any fun step => step.srcPort = 0
  else path.getLast?.any fun step => step.dstPort = 0

/-- The paths of the two lanes between two positions. -/
def chosenPaths (fabric : Fabric) (origin destination : ℤ) : Except String (List (List Step × FunctionClass)) :=
  match fabric.shortestPaths origin destination with
  | [] => .error s!"position {origin} cannot reach position {destination} over the group's fabric ({fabric.describe})"
  | [path] => .ok [(path, .primary), (path, .secondary)]
  | [first, second] =>
    match [first, second].filter (isA origin destination), [first, second].filter fun path => !isA origin destination path with
    | [a], [b] => .ok [(a, .primary), (b, .secondary)]
    | _, _ => .error s!"positions {origin} and {destination} have two shortest paths that the port-0 rule cannot order"
  | paths => .error s!"positions {origin} and {destination} have {paths.length} shortest paths; Spark fabrics have at most two"

def laneOver (peer index : ℕ) (path : List Step) (functionClass : FunctionClass) : Except String Lane :=
  match path.head?, path.getLast? with
  | some first, some last =>
    .ok ⟨peer, index, first.srcPort, functionClass, last.dstPort, first.src :: path.map Step.dst, path.map Step.cable⟩
  | _, _ => .error "list index out of range"

/-- The lanes of a rank toward another. -/
def lanesToward (fabric : Fabric) (members : List ℤ) (rank peer laneCount : ℕ) : Except String (List Lane) :=
  if laneCount ≠ 1 ∧ laneCount ≠ 2 then .error "a route has one or two lanes per peer"
  else
    match members[rank]?, members[peer]? with
    | some origin, some destination => do
      let chosen ← chosenPaths fabric origin destination
      (chosen.take laneCount).zipIdx.mapM fun entry => laneOver peer entry.2 entry.1.1 entry.1.2
    | _, _ => .error "tuple index out of range"

/-- Every two different ranks of a group, in order. -/
def rankPairs (n : ℕ) : List (ℕ × ℕ) :=
  ((List.range n).flatMap fun a => (List.range n).map fun b => (a, b)).filter fun pair => pair.1 ≠ pair.2

/-- The lanes between all ranks of a group. -/
def allLanes (fabric : Fabric) (members : List ℤ) (laneCount : ℕ) : Except String (List (List Lane)) :=
  (rankPairs members.length).mapM fun pair => lanesToward fabric members pair.1 pair.2 laneCount

/-- A group placed on the fabric. -/
structure GroupTopology where
  /-- The physical fabric. -/
  layout : Layout
  /-- What the group may route over. -/
  fabric : Fabric
  /-- Position of each rank. -/
  members : List ℤ
  /-- Lanes per peer. -/
  laneCount : ℕ
  /-- The qualified limit of relays. -/
  maxRelaysAllowed : ℕ
  /-- It routes over its parent's fabric. -/
  subgroup : Bool
  /-- Every rank has lanes toward every other. -/
  reached : ∃ lanes, allLanes fabric members laneCount = .ok lanes

/-- A group as messages name it. -/
def describeMembers (layout : Layout) (fabric : Fabric) (members : List ℤ) (subgroup : Bool) : String :=
  (if subgroup then "sub" else "") ++ s!"group at positions {members} on {fabric.describe} of {layout.describe}"

/-- Most relays of some lanes. -/
def mostRelays (lanes : List (List Lane)) : ℕ := (lanes.flatten.map fun lane => lane.hops - 1).foldl max 0

/-- Which cables a group routes over. -/
inductive RouteScope
  /-- Its own, or its parent's. -/
  | group
  /-- The layout's. -/
  | fabric
  deriving DecidableEq

/-- The fabric of a group: its own or its parent's, or the whole layout's. -/
def scopedFabric (layout : Layout) (members : List ℤ) (parent : Option (List ℤ)) (scope : RouteScope) : Except String Fabric := do
  checkPositions layout members
  let fabric ← match parent with
    | none => groupFabric layout members
    | some parent =>
      if members ⊆ parent then groupFabric layout parent
      else .error s!"subgroup positions {members} are not inside the parent group {parent}"
  match scope with
  | .group => .ok fabric
  | .fabric => groupFabric layout layout.positions

/-- Place a group on the fabric. -/
def describeGroup (layout : Layout) (members : List ℤ) (parent : Option (List ℤ)) (laneCount maxRelays : ℕ) (scope : RouteScope) :
    Except String GroupTopology := do
  let fabric ← scopedFabric layout members parent scope
  match h : allLanes fabric members laneCount with
  | .error message => .error message
  | .ok lanes =>
    if maxRelays < mostRelays lanes then
      .error s!"the {describeMembers layout fabric members parent.isSome} has lanes through {mostRelays lanes} relays; the qualified limit is {maxRelays} (SIRCL_MAX_RELAYS)"
    else .ok ⟨layout, fabric, members, laneCount, maxRelays, parent.isSome, lanes, h⟩

namespace GroupTopology

variable (topology : GroupTopology)

/-- The lanes of a rank toward another. -/
def lanes (rank peer : ℕ) : List Lane :=
  match lanesToward topology.fabric topology.members rank peer topology.laneCount with
  | .ok lanes => lanes
  | .error _ => []

/-- Cables of the first lane toward a peer. -/
def hops (rank peer : ℕ) : ℕ := ((topology.lanes rank peer).head?.map Lane.hops).getD 0

def position (rank : ℕ) : ℤ := topology.members.getD rank 0

/-- Consecutive ranks of a group, the first after the last. -/
def consecutive (n : ℕ) : List (ℕ × ℕ) := (List.range (if 2 < n then n else 1)).map fun i => (i, (i + 1) % n)

/-- Consecutive ranks that share no cable. -/
def uncabledPairs : List (ℕ × ℕ) :=
  if topology.members.length < 2 then []
  else (consecutive topology.members.length).filter fun pair =>
    !topology.fabric.adjacent (topology.position pair.1) (topology.position pair.2)

/-- What NCCL may do on the group by its cables, and why. -/
def nccl : NcclPolicy × String :=
  if topology.members.length < 2 then (.all, "single rank")
  else if topology.members.Pairwise fun a b => topology.fabric.adjacent a b then (.all, "every pair of ranks shares a cable")
  else
    let missing := topology.uncabledPairs
    if missing = [] then
      (.ring, "consecutive ranks share cables around the whole group; NCCL ring algorithm only")
    else
      (.none, "no cable between " ++ ", ".intercalate (missing.map fun pair =>
        s!"ranks {pair.1}-{pair.2} (positions {topology.position pair.1}-{topology.position pair.2}, {topology.hops pair.1 pair.2 - 1} relays)"))

/-- What NCCL may do on the group by its cables. -/
def ncclPolicy : NcclPolicy := topology.nccl.1

/-- Why NCCL may or may not run on the group. -/
def ncclReason : String := topology.nccl.2

/-- Two ranks share a cable. -/
def pairCabled (a b : ℕ) : Bool := topology.fabric.adjacent (topology.position a) (topology.position b)

end GroupTopology

/-- What NCCL may do on a group of any shape, from the cables between its ranks. -/
def ncclPolicyOf (layout : Layout) (positions : List ℤ) : Except String (NcclPolicy × String) := do
  checkPositions layout positions
  let kind := match layout with
    | .ring _ _ => FabricKind.ring
    | .path _ _ => .path
    | .pair _ => .pair
  let fabric : Fabric := ⟨kind, layout.positions, layout.cables⟩
  let position := fun rank => positions.getD rank 0
  if positions.length < 2 then .ok (.all, "single rank")
  else if positions.Pairwise fun a b => fabric.adjacent a b then .ok (.all, "every pair of ranks shares a cable")
  else
    let missing := (GroupTopology.consecutive positions.length).filter fun pair => !fabric.adjacent (position pair.1) (position pair.2)
    if missing = [] then
      .ok (.ring, "consecutive ranks share cables around the whole group; NCCL ring algorithm only")
    else
      .ok (.none, "no cable between " ++ ", ".intercalate (missing.map fun pair =>
        s!"ranks {pair.1}-{pair.2} (positions {position pair.1}-{position pair.2})"))

end SparkRing.GroupFabric
