import Mathlib.Algebra.Order.Ring.Nat
import Mathlib.Data.List.Sigma
import Mathlib.Data.List.Sort
import SparkRing.BreadthFirst

/-!
# Cables, shortest paths and the lanes derived from them

A Spark has two ports, and a cable joins a port of one Spark to a port of
another. A fabric is a set of cables with at most one on every port. The lanes
between two positions follow the shortest paths of the fabric.
-/

namespace SparkRing.Routes

open BreadthFirst

/-- A port of a Spark's adapter. -/
abbrev Port := Fin 2

/-- One PCIe function of a Spark's adapter. -/
structure Role where
  /-- Name of the function. -/
  name : String
  device : String
  /-- Its network interface. -/
  netdev : String
  port : Port
  /-- It is the secondary function of its port. -/
  secondary : Bool
  deriving DecidableEq

/-- The four functions under the names the operating system gives them. -/
def defaultRoles : List Role :=
  [⟨"cw_primary", "rocep1s0f0", "enp1s0f0np0", 0, false⟩,
    ⟨"cw_secondary", "roceP2p1s0f0", "enP2p1s0f0np0", 0, true⟩,
    ⟨"ccw_primary", "rocep1s0f1", "enp1s0f1np1", 1, false⟩,
    ⟨"ccw_secondary", "roceP2p1s0f1", "enP2p1s0f1np1", 1, true⟩]

/-- A function without the names a fabric document may change. -/
def Role.place (role : Role) : String × Port × Bool := (role.name, role.port, role.secondary)

/-- The functions a process uses: the default ones, or those with the names of a
fabric document. -/
structure Roles where
  /-- The functions, in the order of the default ones. -/
  all : List Role
  /-- Only the names of devices and interfaces differ from the default. -/
  place : all.map Role.place = defaultRoles.map Role.place
  device_named : ∀ role ∈ all, role.device ≠ ""
  /-- No device belongs to two functions. -/
  device_distinct : (all.map Role.device).Nodup

/-- The functions of a process without a fabric document. -/
def Roles.default : Roles := ⟨defaultRoles, rfl, by decide, by decide⟩

/-- One position of a fabric document: the device and the interface it names for a
port and function, where it names them. -/
structure DocumentPosition where
  position : ℤ
  /-- Device and interface of a port's primary or secondary function. -/
  names : Port → Bool → Option (String × String)

/-- The class of a function, as a fabric document spells it. -/
def Role.function (role : Role) : String := if role.secondary then "secondary" else "primary"

/-- One function under the names a position of a fabric document gives it. -/
def DocumentPosition.role (entry : DocumentPosition) (role : Role) : Except String Role :=
  match entry.names role.port role.secondary with
  | none =>
    .error (s!"position {entry.position} of the fabric document does not name the RDMA " ++
      s!"device and network interface of port {role.port} {role.function}")
  | some names =>
    if names.1 = "" ∨ names.2 = "" then
      .error (s!"position {entry.position} of the fabric document names an empty device or " ++
        s!"interface for port {role.port} {role.function}")
    else .ok { role with device := names.1, netdev := names.2 }

/-- The functions one position of a fabric document names. -/
def DocumentPosition.roles (entry : DocumentPosition) : Except String (List Role) :=
  defaultRoles.mapM entry.role

/-- Positions after the first one name every function as the first does. -/
def agreeWithFirst (first : List Role) : List DocumentPosition → Except String Unit
  | [] => .ok ()
  | entry :: rest => do
    let named ← entry.roles
    match (named.zip first).find? fun pair => pair.1 ≠ pair.2 with
    | none => agreeWithFirst first rest
    | some (differing, _) =>
      .error (s!"position {entry.position} of the fabric document names port {differing.port} " ++
        s!"{differing.function} differently from the first position; SIRCL needs every Spark of a " ++
        "fabric to name its functions alike")

/-- The four functions a fabric document names. -/
def rolesFromFabricDocument (positions : List DocumentPosition) : Except String (List Role) :=
  match positions with
  | [] => .error "the fabric document lists no positions"
  | first :: rest => do
    let roles ← first.roles
    agreeWithFirst roles rest
    if (roles.map Role.device).Nodup ∧ (roles.map Role.netdev).Nodup then .ok roles
    else .error "the fabric document names one device or interface for two functions"

/-- The function of a class on a port. -/
def Roles.roleAt (roles : Roles) (port : Port) (secondary : Bool) : Except String Role :=
  match roles.all.find? fun role => role.port = port ∧ role.secondary = secondary with
  | some role => .ok role
  | none => .error s!"no function on port {port}"

/-- The function of a device: what a caller's mapping says, else the function of that name. -/
def Roles.roleOf (roles : Roles) (mapping : String → Option Role) (device : String) : Option Role :=
  match mapping device with
  | some role => some role
  | none => roles.all.find? fun role => role.device = device

/-- A cable between ports of two different Sparks. -/
structure Cable where
  /-- Position of one end. -/
  a : ℤ
  /-- Port of that end. -/
  aPort : Port
  /-- Position of the other end. -/
  b : ℤ
  /-- Port of the other end. -/
  bPort : Port
  /-- No cable joins a Spark to itself. -/
  distinct : a ≠ b
  deriving DecidableEq

/-- A cable, unless it joins a Spark to itself. -/
def Cable.build (a : ℤ) (aPort : Port) (b : ℤ) (bPort : Port) : Except String Cable :=
  if h : a = b then .error s!"cable {a}.port{aPort}-{b}.port{bPort} joins a Spark to itself"
  else .ok ⟨a, aPort, b, bPort, h⟩

/-- The two ends of a cable. -/
def Cable.ends (cable : Cable) : List (ℤ × Port) := [(cable.a, cable.aPort), (cable.b, cable.bPort)]

/-- One cable crossed from a port to a port. -/
structure Step where
  cable : Cable
  /-- Position it is left at. -/
  src : ℤ
  /-- Port it is left through. -/
  srcPort : Port
  /-- Position it leads to. -/
  dst : ℤ
  /-- Port it arrives on. -/
  dstPort : Port
  deriving DecidableEq

/-- The same cable crossed the other way. -/
def Step.reverse (step : Step) : Step := ⟨step.cable, step.dst, step.dstPort, step.src, step.srcPort⟩

/-- The same cables crossed the other way, last one first. -/
def reversePath (path : List Step) : List Step := (path.map Step.reverse).reverse

/-- The first of a list's elements that occurred before it or in `seen`. -/
def firstRepeat {α : Type*} [DecidableEq α] : List α → List α → Option α
  | _, [] => none
  | seen, x :: rest => if x ∈ seen then some x else firstRepeat (x :: seen) rest

/-- The cables a group owns. -/
structure Fabric where
  cables : List Cable
  /-- No port has two cables. -/
  once : (cables.flatMap Cable.ends).Nodup

/-- Without a repeated element, a list has no duplicates. -/
theorem firstRepeat_none {α : Type*} [DecidableEq α] {seen l : List α} (h : firstRepeat seen l = none) : l.Nodup ∧ ∀ x ∈ l, x ∉ seen := by
  induction l generalizing seen with
  | nil => simp
  | cons x rest ih =>
    rw [firstRepeat] at h
    split at h
    · cases h
    rename_i hx
    obtain ⟨hrest, hout⟩ := ih h
    refine ⟨List.nodup_cons.mpr ⟨fun hmem => hout x hmem List.mem_cons_self, hrest⟩, fun y hy => ?_⟩
    rcases List.mem_cons.mp hy with rfl | hy
    · exact hx
    · exact fun hmem => hout y hy (List.mem_cons_of_mem x hmem)

/-- A fabric, unless some port has two cables. -/
def Fabric.build (cables : List Cable) : Except String Fabric :=
  match h : firstRepeat [] (cables.flatMap Cable.ends) with
  | some place => .error s!"port {place.2} of position {place.1} has two cables"
  | none => .ok ⟨cables, (firstRepeat_none h).1⟩

/-- Positions of a fabric, in order. -/
def Fabric.positions (fabric : Fabric) : List ℤ :=
  (((fabric.cables.flatMap Cable.ends).map Prod.fst).dedup).insertionSort (· ≤ ·)

def Fabric.cableAt (fabric : Fabric) (position : ℤ) (port : Port) : Option Cable :=
  fabric.cables.find? fun cable => (position, port) ∈ cable.ends

/-- Leave a position through a port; `none` when that port has no cable. -/
def Fabric.cross (fabric : Fabric) (position : ℤ) (port : Port) : Option Step :=
  match fabric.cableAt position port with
  | none => none
  | some cable =>
    if (cable.a, cable.aPort) = (position, port) then some ⟨cable, position, port, cable.b, cable.bPort⟩
    else some ⟨cable, position, port, cable.a, cable.aPort⟩

/-- The ports of a Spark, in the order they are tried. -/
def ports : List Port := [0, 1]

/-- Positions one cable away. -/
def Fabric.neighbours (fabric : Fabric) (here : ℤ) : List ℤ :=
  ports.filterMap fun port => (fabric.cross here port).map Step.dst

/-- Distance to `b` of every position that reaches it. -/
def Fabric.distances (fabric : Fabric) (b : ℤ) : Option (Distances ℤ) :=
  search fabric.neighbours (fabric.positions.length + 1) [b] (start b)

/-- Paths to `b` along falling distances, from a position at distance `n`, each after `steps`. -/
def Fabric.extend (fabric : Fabric) (b : ℤ) (distance : Distances ℤ) : ℕ → ℤ → List Step → List (List Step)
  | 0, here, steps => if here = b then [steps] else []
  | n + 1, here, steps =>
    if here = b then [steps]
    else ports.flatMap fun port =>
      match fabric.cross here port with
      | none => []
      | some step =>
        if distance step.dst = some n then fabric.extend b distance n step.dst (steps ++ [step]) else []

/-- Every shortest cable path from `a` to `b`. -/
def Fabric.shortestPaths (fabric : Fabric) (a b : ℤ) : Except String (List (List Step)) :=
  if a = b then .error "a lane joins two different Sparks"
  else match fabric.distances b with
    | none => .error "the search did not end"
    | some distance =>
      match distance a with
      | none => .ok []
      | some n => .ok (fabric.extend b distance n a [])

/-- Follow the fabric out of a port, relays leaving through their other port, up to
`target`; `none` when the walk leaves the fabric or exceeds its limit first. -/
def Fabric.walk (fabric : Fabric) (here : ℤ) (out : Port) (target : ℤ) : ℕ → Option (List Step)
  | 0 => none
  | limit + 1 =>
    match fabric.cross here out with
    | none => none
    | some step =>
      if step.dst = target then some [step]
      else (fabric.walk step.dst (1 - step.dstPort) target limit).map (step :: ·)

/-- A session's fabric and the position of every rank on it. -/
structure Layout where
  fabric : Fabric
  /-- Position of every rank. -/
  positions : List ℤ
  distinct : positions.Nodup
  known : ∀ position ∈ positions, position ∈ fabric.positions

/-- A layout, unless two ranks share a position or a position is not on the fabric. -/
def Layout.build (fabric : Fabric) (positions : List ℤ) : Except String Layout :=
  if hd : positions.Nodup then
    if hk : ∀ position ∈ positions, position ∈ fabric.positions then .ok ⟨fabric, positions, hd, hk⟩
    else .error s!"positions {positions.filter fun position => position ∉ fabric.positions} are not on the fabric"
  else .error "ranks need distinct fabric positions"

/-- Ranks of a layout. -/
def Layout.world (layout : Layout) : ℕ := layout.positions.length

/-- One lane from a rank toward a peer. -/
structure LaneRoute where
  lane : ℕ
  /-- Function it leaves through. -/
  localRole : Role
  /-- Function it arrives on. -/
  remoteRole : Role
  /-- Cables it crosses. -/
  steps : List Step
  deriving DecidableEq

/-- The Sparks that relay a lane. -/
def LaneRoute.relays (route : LaneRoute) : List ℤ := route.steps.dropLast.map Step.dst

/-- The path leaves the end with the smaller position through port 0. -/
def leavesSmallerThroughPort0 (a b : ℤ) (path : List Step) : Bool :=
  if min a b = a then path.head?.any fun step => step.srcPort = 0
  else path.getLast?.any fun step => step.dstPort = 0

/-- The paths of lane 0 and lane 1. -/
def chosenPaths (a b : ℤ) (paths : List (List Step)) : Except String (List Step × List Step) :=
  match paths with
  | [] => .error s!"position {b} cannot be reached from position {a} on this fabric"
  | [path] => .ok (path, path)
  | [_, _] =>
    match paths.filter (leavesSmallerThroughPort0 a b) with
    | [pathA] =>
      match paths.find? (· ≠ pathA) with
      | some pathB => .ok (pathA, pathB)
      | none => .error "StopIteration"
    | _ => .error s!"cannot tell path A from path B between positions {a} and {b}"
  | _ => .error s!"{paths.length} shortest paths between positions {a} and {b}"

/-- A lane over a path: the function of its class at both ends. -/
def laneOver (roles : Roles) (lane : ℕ) (path : List Step) : Except String LaneRoute :=
  match path.head?, path.getLast? with
  | some first, some last => do
    let localRole ← roles.roleAt first.srcPort (lane == 1)
    let remoteRole ← roles.roleAt last.dstPort (lane == 1)
    .ok ⟨lane, localRole, remoteRole, path⟩
  | _, _ => .error "tuple index out of range"

/-- The lanes from position `a` to position `b`. -/
def deriveLanes (roles : Roles) (fabric : Fabric) (a b : ℤ) (lanes : ℕ) : Except String (List LaneRoute) :=
  if lanes ≠ 1 ∧ lanes ≠ 2 then .error "a session has one or two lanes per peer"
  else do
    let paths ← fabric.shortestPaths a b
    let chosen ← chosenPaths a b paths
    (List.range lanes).mapM fun lane => laneOver roles lane (if lane = 0 then chosen.1 else chosen.2)

/-- What one rank has for every peer it names. -/
structure PeerTable (α : Type*) where
  /-- Peers with what they have, in the order they were named. -/
  items : List (ℕ × α)
  /-- No peer is named twice. -/
  distinct : (items.map Prod.fst).Nodup

def PeerTable.get? {α : Type*} (table : PeerTable α) (peer : ℕ) : Option α := table.items.lookup peer

/-- The peers in order. -/
def PeerTable.sorted {α : Type*} (table : PeerTable α) : List (ℕ × α) :=
  table.items.insertionSort fun x y => x.1 ≤ y.1

/-- A rank's route map: the local devices of its lanes toward every peer. -/
abbrev RouteMap := PeerTable (List String)

/-- Every rank's lanes for one session. -/
structure GroupRoutes where
  layout : Layout
  /-- Lanes per peer. -/
  lanes : ℕ
  ranks : List (PeerTable (List LaneRoute))

/-- Peers of a rank with their positions. -/
def Layout.peers (layout : Layout) (rank : ℕ) : List (ℤ × ℕ) :=
  layout.positions.zipIdx.filter fun entry => entry.2 ≠ rank

/-- What comes first in pairs of two lists is in order from the first list. -/
theorem map_fst_zip_sublist {α β : Type*} (l : List α) (m : List β) : ((l.zip m).map Prod.fst).Sublist l := by
  induction l generalizing m with
  | nil => simp
  | cons x l ih =>
    cases m with
    | nil => simp
    | cons y m => exact (ih m).cons_cons x

/-- Peers of a rank are listed once. -/
theorem Layout.peers_nodup (layout : Layout) (rank : ℕ) : ((layout.peers rank).map Prod.snd).Nodup :=
  (List.nodup_zipIdx_map_snd layout.positions).sublist (List.filter_sublist.map _)

/-- The lanes of one rank toward every peer. -/
def deriveRank (roles : Roles) (layout : Layout) (lanes rank : ℕ) (here : ℤ) :
    Except String (PeerTable (List LaneRoute)) := do
  let routes ← (layout.peers rank).mapM fun entry => deriveLanes roles layout.fabric here entry.1 lanes
  .ok ⟨((layout.peers rank).map Prod.snd).zip routes,
    (layout.peers_nodup rank).sublist (map_fst_zip_sublist _ _)⟩

/-- Route maps of every rank of a session. -/
def deriveRoutes (roles : Roles) (layout : Layout) (lanes : ℕ) : Except String GroupRoutes := do
  let ranks ← layout.positions.zipIdx.mapM fun entry => deriveRank roles layout lanes entry.2 entry.1
  .ok ⟨layout, lanes, ranks⟩

end SparkRing.Routes
