import SparkRing.RouteMaps

/-!
# Derived route maps are complementary and pass their validation

For every fabric, the lanes between two connected positions are derived without
ambiguity, pair up across the two ends and are the walks out of their local
ports. So the maps derived for a layout have no pairing problem, and each is
accepted when its lanes cross few enough relays and it names some peer.
-/

namespace SparkRing.Routes

open List (getElem?_eq_getElem getElem?_map length_map mem_map)
open PeerTable (get?_isSome mem_routeMap mem_sorted)

variable {roles : Roles} {layout : Layout} {lanes rank peer : ℕ} {routes : GroupRoutes}
  {table : PeerTable (List LaneRoute)} {found : List LaneRoute} {maxRelays : ℤ} {available : Option (List String)} {fabric : Fabric}

/-- No device is mapped to another function. -/
def noMapping : String → Option Role := fun _ => none

/-- The lanes toward a peer, with the lanes the peer has back. -/
structure Paired (roles : Roles) (layout : Layout) (lanes rank peer : ℕ) (here there : ℤ)
    (found back : List LaneRoute) : Prop where
  rankAt : layout.positions[rank]? = some here
  peerAt : layout.positions[peer]? = some there
  /-- The two are different. -/
  distinct : here ≠ there
  /-- As many lanes as the session has. -/
  length : found.length = lanes
  /-- Every lane is a derived lane, and its counterpart has its functions the other way round. -/
  lane : ∀ lane route, found[lane]? = some route → IsLane roles layout.fabric here there lane route ∧
    ∃ counterpart, back[lane]? = some counterpart ∧ counterpart.localRole = route.remoteRole

/-- Lanes of a derived table are paired with those of the peer's table. -/
theorem deriveRoutes_paired (h : deriveRoutes roles layout lanes = .ok routes) (htable : routes.ranks[rank]? = some table)
    (hfound : (peer, found) ∈ table.items) :
    (lanes = 1 ∨ lanes = 2) ∧ peer ≠ rank ∧ ∃ theirs back here there, routes.ranks[peer]? = some theirs ∧
      (rank, back) ∈ theirs.items ∧ Paired roles layout lanes rank peer here there found back := by
  obtain ⟨-, -, hlength, hranks⟩ := deriveRoutes_spec h
  obtain ⟨here, hhere, hderived⟩ := hranks rank table htable
  obtain ⟨there, hthere, hne, hlanes⟩ := (deriveRank_spec hderived).mp hfound
  obtain ⟨hab, hconnected, hcount⟩ := deriveLanes_connected hlanes
  have hlt : peer < routes.ranks.length := hlength.symm ▸ (List.getElem?_eq_some_iff.mp hthere).1
  obtain ⟨there', hthere', hderived'⟩ := hranks peer _ (getElem?_eq_getElem hlt)
  obtain rfl := Option.some.inj (hthere.symm.trans hthere')
  obtain ⟨path, hpath⟩ := hconnected
  obtain ⟨-, -, back, -, hback, -⟩ := deriveLanes_ok roles hab.symm ⟨_, hpath.reverse⟩ hcount
  obtain ⟨hlen, hpair⟩ := deriveLanes_pair hlanes hback
  refine ⟨hcount, hne, _, back, here, there, getElem?_eq_getElem hlt,
    (deriveRank_spec hderived').mpr ⟨here, hhere, hne.symm, hback⟩, hhere, hthere, hab, hlen, ?_⟩
  intro lane route hroute
  obtain ⟨hlane, counterpart, hcounterpart, -, hlocal, -⟩ := hpair lane route hroute
  exact ⟨hlane, counterpart, hcounterpart, hlocal⟩

variable {route : LaneRoute}

/-- A derived lane reaches its target within the fabric. -/
theorem IsLane.walk_positions {a b : ℤ} {lane : ℕ} (hab : a ≠ b) (h : IsLane roles fabric a b lane route) :
    fabric.walk a route.localRole.port b fabric.positions.length = some route.steps :=
  h.walk _ (h.shortest.length_lt hab).le

theorem laneProblems_nil (h : deriveRoutes roles layout lanes = .ok routes) (htable : routes.ranks[rank]? = some table)
    (hfound : (peer, found) ∈ table.items) {lane : ℕ} (hroute : found[lane]? = some route) :
    laneProblems roles noMapping layout routes.routeMaps rank peer lane route.localRole.device = .ok [] := by
  obtain ⟨-, -, theirs, back, here, there, htheirs, hback, hpaired⟩ := deriveRoutes_paired h htable hfound
  obtain ⟨hlane, counterpart, hcounterpart, hlocal⟩ := hpaired.lane lane route hroute
  obtain ⟨last, hlast, hremote⟩ := hlane.arrives
  have hmaps : routes.routeMaps[peer]? = some theirs.routeMap := by
    rw [GroupRoutes.routeMaps, getElem?_map, htheirs, Option.map_some]
  have hentry : theirs.routeMap.get? rank = some (back.map fun lane => lane.localRole.device) :=
    PeerTable.get?_eq_some.mpr (mem_routeMap.mpr ⟨back, hback, rfl⟩)
  have hmine : roles.roleOf noMapping route.localRole.device = some route.localRole :=
    Roles.roleOf_device hlane.localRole.1 rfl
  have htheirDevice : (back.map fun lane => lane.localRole.device)[lane]? = some route.remoteRole.device := by
    rw [getElem?_map, hcounterpart, Option.map_some, hlocal]
  have htheirRole : roles.roleOf noMapping route.remoteRole.device = some route.remoteRole :=
    Roles.roleOf_device hlane.remoteRole.1 rfl
  have hwalk := hlane.walk_positions hpaired.distinct
  have hexpected : roles.roleAt last.dstPort route.localRole.secondary = .ok route.remoteRole := by
    rw [hlane.localRole.2, hremote]
  simp only [laneProblems, hmaps, hentry, Option.getD_some, hmine, htheirDevice, hpaired.rankAt, hpaired.peerAt, hwalk,
    hlast, hexpected, htheirRole, bind, Except.bind, if_true]

/-- Every lane of a group's maps has no problem. -/
def LanesPass (routeMaps : List RouteMap) (f : ℕ → ℕ → ℕ → String → Except String (List String)) : Prop :=
  ∀ rank map, routeMaps[rank]? = some map → ∀ peer devices, map.get? peer = some devices → ∀ lane device,
    devices[lane]? = some device → f rank peer lane device = .ok []

/-- The problems of all lanes, the entries of a map in some order. -/
theorem lanesPass_iff {f : ℕ → ℕ → ℕ → String → Except String (List String)} {order : RouteMap → List (ℕ × List String)}
    (horder : ∀ map entry, entry ∈ order map ↔ entry ∈ map.items) {routeMaps : List RouteMap} :
    (do
      let problems ← routeMaps.zipIdx.mapM fun entry => (order entry.1).mapM fun item => item.2.zipIdx.mapM fun device =>
        f entry.2 item.1 device.2 device.1
      .ok problems.flatten.flatten.flatten : Except String (List String)) = .ok [] ↔ LanesPass routeMaps f := by
  have hflat : ∀ result : Except String (List (List (List (List String)))),
      (do let problems ← result; .ok problems.flatten.flatten.flatten : Except String (List String)) = .ok [] ↔
        ∃ ranks, result = .ok ranks ∧ ∀ peers ∈ ranks, ∀ lanes ∈ peers, ∀ problems ∈ lanes, problems = [] := by
    rintro (error | ranks)
    · simp [bind, Except.bind]
    · simp only [bind, Except.bind, Except.ok.injEq, List.flatten_eq_nil_iff, List.forall_mem_flatten, exists_eq_left']
  rw [hflat, mapM_forall_iff]
  simp only [mapM_forall_iff, Prod.forall, List.mk_mem_zipIdx_iff_getElem?, horder, exists_eq_right, ← PeerTable.get?_eq_some]
  unfold LanesPass
  grind

theorem checkComplementary_iff {mapping : String → Option Role} {routeMaps : List RouteMap} :
    checkComplementary roles mapping layout routeMaps = .ok [] ↔ LanesPass routeMaps (laneProblems roles mapping layout routeMaps) :=
  lanesPass_iff fun _ _ => mem_sorted

/-- Derived maps have no pairing problem. -/
theorem checkComplementary_nil (h : deriveRoutes roles layout lanes = .ok routes) :
    checkComplementary roles noMapping layout routes.routeMaps = .ok [] := by
  refine checkComplementary_iff.mpr fun rank map hmap peer devices hitem lane device hdevice => ?_
  rw [GroupRoutes.routeMaps, getElem?_map] at hmap
  obtain ⟨table, htable, rfl⟩ := Option.map_eq_some_iff.mp hmap
  obtain ⟨found, hfound, rfl⟩ := mem_routeMap.mp (PeerTable.get?_eq_some.mp hitem)
  rw [getElem?_map] at hdevice
  obtain ⟨route, hroute, rfl⟩ := Option.map_eq_some_iff.mp hdevice
  exact laneProblems_nil h htable hfound hroute

/-- A check of every element passes when each does. -/
theorem forM_ok {ε α : Type*} {f : α → Except ε Unit} {l : List α} (h : ∀ x ∈ l, f x = .ok ()) : l.forM f = .ok () := by
  induction l with
  | nil => rfl
  | cons x l ih =>
    have hrest := ih fun y hy => h y (List.mem_cons_of_mem x hy)
    rw [List.forM_eq_forM] at hrest ⊢
    rw [List.forM_cons, h x List.mem_cons_self]
    exact hrest

/-- A process has four functions. -/
theorem Roles.length (roles : Roles) : roles.all.length = 4 := by
  have h := congrArg List.length roles.place
  rwa [length_map, length_map] at h

section

variable (h : deriveRoutes roles layout lanes = .ok routes)

include h

section

variable (htable : routes.ranks[rank]? = some table)

include htable

/-- A derived map names exactly the other ranks. -/
theorem routeMap_peers : (table.routeMap.get? peer).isSome ↔ peer < layout.world ∧ peer ≠ rank := by
  obtain ⟨-, -, -, hranks⟩ := deriveRoutes_spec h
  obtain ⟨here, hhere, hderived⟩ := hranks rank table htable
  rw [get?_isSome]
  constructor
  · rintro ⟨devices, hdevices⟩
    obtain ⟨found, hfound, -⟩ := mem_routeMap.mp hdevices
    obtain ⟨there, hthere, hne, -⟩ := (deriveRank_spec hderived).mp hfound
    exact ⟨(List.getElem?_eq_some_iff.mp hthere).1, hne⟩
  rintro ⟨hlt, hne⟩
  have hthere := getElem?_eq_getElem hlt
  obtain ⟨found, hfound⟩ := deriveRank_total hderived hthere hne
  exact ⟨_, mem_routeMap.mpr ⟨found, (deriveRank_spec hderived).mpr ⟨_, hthere, hne, hfound⟩, rfl⟩⟩

/-- The ranks of a derived map are in order. -/
theorem validateRanks_ok : validateRanks rank layout.world table.routeMap = .ok () := by
  obtain ⟨-, -, hlength, -⟩ := deriveRoutes_spec h
  have hrank : rank < layout.world := hlength ▸ (List.getElem?_eq_some_iff.mp htable).1
  have hown : ¬(table.routeMap.get? rank).isSome := fun hsome => ((routeMap_peers h htable).mp hsome).2 rfl
  have hmissing : (List.range layout.world).filter (fun peer => peer ≠ rank ∧ ¬(table.routeMap.get? peer).isSome) = [] := by
    rw [List.filter_eq_nil_iff]
    intro peer hpeer hbad
    rw [decide_eq_true_eq] at hbad
    exact hbad.2 ((routeMap_peers h htable).mpr ⟨List.mem_range.mp hpeer, hbad.1⟩)
  have hextra : (table.routeMap.sorted.map Prod.fst).filter (fun peer => ¬peer < layout.world) = [] := by
    rw [List.filter_eq_nil_iff]
    intro peer hpeer hbad
    rw [decide_eq_true_eq] at hbad
    obtain ⟨⟨known, devices⟩, hmem, rfl⟩ := mem_map.mp hpeer
    have hsome := get?_isSome.mpr ⟨devices, mem_sorted.mp hmem⟩
    exact hbad ((routeMap_peers h htable).mp hsome).1
  rw [validateRanks, if_neg (not_not.mpr hrank), if_neg hown, hmissing, hextra]

/-- In a session of at least two ranks a rank has some peer. -/
theorem exists_peer (hworld : 2 ≤ layout.world) : ∃ peer found, (peer, found) ∈ table.items := by
  obtain ⟨peer, hpeer⟩ : ∃ peer, (table.routeMap.get? peer).isSome := by
    by_cases hzero : rank = 0
    · exact ⟨1, (routeMap_peers h htable).mpr ⟨by omega, by omega⟩⟩
    · exact ⟨0, (routeMap_peers h htable).mpr ⟨by omega, by omega⟩⟩
  obtain ⟨devices, hdevices⟩ := get?_isSome.mp hpeer
  obtain ⟨found, hfound, -⟩ := mem_routeMap.mp hdevices
  exact ⟨peer, found, hfound⟩

/-- Every entry of a derived map has the session's lane count. -/
theorem validateLaneCount_ok (hworld : 2 ≤ layout.world) : validateLaneCount rank table.routeMap = .ok lanes := by
  obtain ⟨peer, found, hfound⟩ := exists_peer h htable hworld
  have hentry := mem_routeMap.mpr ⟨found, hfound, rfl⟩
  have hall : ∀ count ∈ table.routeMap.items.map (fun entry => entry.2.length), count = lanes := by
    intro count hcount
    obtain ⟨⟨peer, devices⟩, hmem, rfl⟩ := mem_map.mp hcount
    obtain ⟨found, hfound, rfl⟩ := mem_routeMap.mp hmem
    obtain ⟨-, -, _, _, _, _, -, -, hpaired⟩ := deriveRoutes_paired h htable hfound
    exact (length_map ..).trans hpaired.length
  have hsome : (table.routeMap.items.map fun entry => entry.2.length).length ≠ 0 := by
    rw [length_map]
    exact (List.length_pos_of_mem hentry).ne'
  obtain ⟨hlanes, -⟩ := deriveRoutes_paired h htable hfound
  have hcount : 1 ≤ lanes ∧ lanes ≤ maxLanes := by
    rw [maxLanes]
    omega
  rw [validateLaneCount, List.eq_replicate_of_mem hall, List.replicate_dedup hsome]
  exact if_neg (not_not.mpr hcount)

/-- The devices of derived lanes are functions of the process, each of its lane's class. -/
theorem mem_devices (hfound : (peer, found) ∈ table.items) {lane : ℕ} (hroute : found[lane]? = some route) :
    route.localRole ∈ roles.all ∧ route.localRole.secondary = (lane == 1) := by
  obtain ⟨-, -, _, _, _, _, -, -, hpaired⟩ := deriveRoutes_paired h htable hfound
  exact (hpaired.lane lane route hroute).1.localRole

/-- Every entry of a derived map has distinct named devices. -/
theorem validateEntry_ok
    (hfound : (peer, found) ∈ table.items) :
    validateEntry rank peer (found.map fun lane => lane.localRole.device) = .ok () := by
  obtain ⟨hlanes, -, _, _, _, _, -, -, hpaired⟩ := deriveRoutes_paired h htable hfound
  have hnamed : "" ∉ found.map fun lane => lane.localRole.device := by
    intro hempty
    obtain ⟨route, hroute, hdevice⟩ := mem_map.mp hempty
    obtain ⟨lane, hlane⟩ := List.mem_iff_getElem?.mp hroute
    exact roles.device_named _ (mem_devices h htable hfound hlane).1 hdevice
  have hdistinct : (found.map fun lane => lane.localRole.device).Nodup := by
    rw [List.nodup_iff_getElem?_ne_getElem?]
    intro i j hij hj heq
    rw [length_map, hpaired.length] at hj
    obtain ⟨rfl, rfl⟩ : i = 0 ∧ j = 1 := by omega
    have hlen := hpaired.length
    have hfirst := getElem?_eq_getElem (show 0 < found.length by omega)
    have hsecond := getElem?_eq_getElem (show 1 < found.length by omega)
    rw [getElem?_map, getElem?_map, hfirst, hsecond] at heq
    obtain ⟨hmine, hclass⟩ := mem_devices h htable hfound hfirst
    obtain ⟨htheirs, hclass'⟩ := mem_devices h htable hfound hsecond
    rw [roles.eq_of_device hmine htheirs (Option.some.inj heq), hclass'] at hclass
    exact absurd hclass (by decide)
  rw [validateEntry, if_neg hnamed, if_neg (not_not.mpr hdistinct)]

end

end

/-- The devices of a map are those of its entries. -/
theorem mem_namedDevices {map : RouteMap} {device : String} :
    device ∈ namedDevices map ↔ ∃ peer devices, (peer, devices) ∈ map.items ∧ device ∈ devices := by
  simp only [namedDevices, List.mem_reverse, List.mem_dedup, List.mem_flatMap, mem_sorted, Prod.exists]

/-- The devices of a map are listed once. -/
theorem namedDevices_nodup (map : RouteMap) : (namedDevices map).Nodup :=
  List.nodup_reverse.mpr (List.nodup_dedup _)

section

variable (h : deriveRoutes roles layout lanes = .ok routes)

include h

section

variable (htable : routes.ranks[rank]? = some table)

include htable

/-- A derived map names one to four devices. -/
theorem validateDevices_ok (hworld : 2 ≤ layout.world)
    (havailable : ∀ active, available = some active → ∀ device ∈ namedDevices table.routeMap, device ∈ active) :
    validateDevices rank table.routeMap available = .ok () := by
  have hsub : namedDevices table.routeMap ⊆ roles.all.map Role.device := by
    intro device hdevice
    obtain ⟨peer, devices, hentry, hmem⟩ := mem_namedDevices.mp hdevice
    obtain ⟨found, hfound, rfl⟩ := mem_routeMap.mp hentry
    obtain ⟨route, hroute, rfl⟩ := mem_map.mp hmem
    obtain ⟨lane, hlane⟩ := List.mem_iff_getElem?.mp hroute
    exact List.mem_map_of_mem (mem_devices h htable hfound hlane).1
  have hmost := ((namedDevices_nodup table.routeMap).subperm hsub).length_le
  rw [length_map, roles.length] at hmost
  have hleast : 1 ≤ (namedDevices table.routeMap).length := by
    obtain ⟨peer, found, hfound⟩ := exists_peer h htable hworld
    obtain ⟨hlanes, -, _, _, _, _, -, -, hpaired⟩ := deriveRoutes_paired h htable hfound
    have hlen := hpaired.length
    have hdevice : found[0].localRole.device ∈ found.map fun lane => lane.localRole.device :=
      List.mem_map_of_mem (List.getElem_mem _)
    exact List.length_pos_of_mem
      (mem_namedDevices.mpr ⟨peer, _, mem_routeMap.mpr ⟨found, hfound, rfl⟩, hdevice⟩)
  have hbound : 1 ≤ (namedDevices table.routeMap).length ∧ (namedDevices table.routeMap).length ≤ maxDevices :=
    ⟨hleast, hmost⟩
  cases available with
  | none => exact if_neg (not_not.mpr hbound)
  | some active =>
    refine (if_neg (not_not.mpr hbound)).trans (forM_ok fun device hdevice => ?_)
    rw [if_pos (havailable active rfl device hdevice)]

/-- A lane over few enough relays passes. -/
theorem validateLane_ok (hfound : (peer, found) ∈ table.items) {lane : ℕ} (hroute : found[lane]? = some route)
    {start : ℤ} (hstart : layout.positions[rank]? = some start) (hrelays : (route.relays.length : ℤ) ≤ maxRelays) :
    validateLane roles noMapping layout maxRelays rank start peer lane route.localRole.device = .ok () := by
  obtain ⟨-, -, _, _, here, there, -, -, hpaired⟩ := deriveRoutes_paired h htable hfound
  obtain rfl := Option.some.inj (hstart.symm.trans hpaired.rankAt)
  obtain ⟨hlane, -⟩ := hpaired.lane lane route hroute
  have hmine : roles.roleOf noMapping route.localRole.device = some route.localRole :=
    Roles.roleOf_device hlane.localRole.1 rfl
  have hsteps : ¬maxRelays < (route.steps.length : ℤ) - 1 := by
    rw [LaneRoute.relays, length_map, List.length_dropLast] at hrelays
    omega
  simp only [validateLane, hmine, hpaired.peerAt, hlane.walk_positions hpaired.distinct, if_neg hsteps]

/-- A derived map whose lanes cross few enough relays is accepted. -/
theorem validateRouteMap_ok (hworld : 2 ≤ layout.world)
    (hrelays : ∀ peer found, (peer, found) ∈ table.items → ∀ route ∈ found, (route.relays.length : ℤ) ≤ maxRelays)
    (havailable : ∀ active, available = some active → ∀ device ∈ namedDevices table.routeMap, device ∈ active) :
    validateRouteMap roles noMapping (some layout) maxRelays available rank layout.world table.routeMap = .ok lanes := by
  obtain ⟨-, -, -, hranks⟩ := deriveRoutes_spec h
  obtain ⟨start, hstart, -⟩ := hranks rank table htable
  have hentries : (table.routeMap.sorted.forM fun entry => validateEntry rank entry.1 entry.2) = .ok () := by
    refine forM_ok fun ⟨peer, devices⟩ hentry => ?_
    obtain ⟨found, hfound, rfl⟩ := mem_routeMap.mp (mem_sorted.mp hentry)
    exact validateEntry_ok h htable hfound
  have hlayout : validateLayout roles noMapping layout maxRelays rank layout.world table.routeMap = .ok () := by
    rw [validateLayout, if_neg (not_not.mpr rfl), hstart]
    refine forM_ok fun ⟨peer, devices⟩ hentry => ?_
    obtain ⟨found, hfound, rfl⟩ := mem_routeMap.mp (mem_sorted.mp hentry)
    refine forM_ok fun ⟨device, lane⟩ hdevice => ?_
    have hlane := List.mk_mem_zipIdx_iff_getElem?.mp hdevice
    rw [getElem?_map] at hlane
    obtain ⟨route, hroute, rfl⟩ := Option.map_eq_some_iff.mp hlane
    exact validateLane_ok h htable hfound hroute hstart (hrelays peer found hfound route (List.mem_of_getElem? hroute))
  rw [validateRouteMap, validateRanks_ok h htable, validateLaneCount_ok h htable hworld]
  simp only [bind, Except.bind, hentries, validateDevices_ok h htable hworld havailable, hlayout]

end

end

/-- The shortest paths and the lanes between two positions. -/
structure LanesPair (roles : Roles) (fabric : Fabric) (a b : ℤ) (lanes : ℕ) : Prop where
  /-- There are one or two shortest paths, and two leave and arrive on different ports. -/
  paths : ∃ paths, fabric.shortestPaths a b = .ok paths ∧ (∀ path, path ∈ paths ↔ Shortest fabric a path b) ∧
    paths ≠ [] ∧ paths.length ≤ 2 ∧ paths.Pairwise fun p q =>
      p.head?.map Step.srcPort ≠ q.head?.map Step.srcPort ∧ p.getLast?.map Step.dstPort ≠ q.getLast?.map Step.dstPort
  /-- The lanes of both ends are derived; each crosses the cables of its counterpart in
  reverse, between the same functions of its class, and is the walk out of its local port. -/
  lanes : ∃ routes back, deriveLanes roles fabric a b lanes = .ok routes ∧ deriveLanes roles fabric b a lanes = .ok back ∧
    routes.length = lanes ∧ back.length = lanes ∧ ∀ lane route, routes[lane]? = some route →
      (∃ counterpart, back[lane]? = some counterpart ∧ counterpart.steps = reversePath route.steps ∧
        counterpart.localRole = route.remoteRole ∧ counterpart.remoteRole = route.localRole) ∧
      route.localRole.secondary = (lane == 1) ∧ route.remoteRole.secondary = (lane == 1) ∧
      fabric.walk a route.localRole.port b fabric.positions.length = some route.steps

/-- Between connected positions of any fabric the lanes pair. -/
theorem lanesPair {a b : ℤ} (hab : a ≠ b) (hconnected : Connected fabric a b)
    (hlanes : lanes = 1 ∨ lanes = 2) : LanesPair roles fabric a b lanes where
  paths := by
    obtain ⟨paths, hpaths, hnodup, hall⟩ := fabric.shortestPaths_spec hab
    refine ⟨paths, hpaths, hall, ?_, shortest_length_le_two hab hnodup fun path => (hall path).mp, ?_⟩
    · rintro rfl
      obtain ⟨path, hpath⟩ := hconnected.exists_shortest
      exact List.not_mem_nil ((hall path).mpr hpath)
    refine hnodup.imp_of_mem fun hp hq hne => ⟨fun heq => hne ?_, fun heq => hne ?_⟩
    · exact ((hall _).mp hp).eq_of_head hab ((hall _).mp hq) heq
    · exact ((hall _).mp hp).eq_of_getLast hab ((hall _).mp hq) heq
  lanes := by
    obtain ⟨path, hpath⟩ := hconnected
    obtain ⟨-, -, routes, -, hroutes, -⟩ := deriveLanes_ok roles hab ⟨path, hpath⟩ hlanes
    obtain ⟨-, -, back, -, hback, -⟩ := deriveLanes_ok roles hab.symm ⟨_, hpath.reverse⟩ hlanes
    obtain ⟨hlength, hpair⟩ := deriveLanes_pair hroutes hback
    refine ⟨routes, back, hroutes, hback, hlength, (deriveLanes_pair hback hroutes).1, fun lane route hroute => ?_⟩
    obtain ⟨hlane, hcounterpart⟩ := hpair lane route hroute
    exact ⟨hcounterpart, hlane.localRole.2, hlane.remoteRole.2, hlane.walk_positions hab⟩

/-- Lane derivation is total and complementary on every fabric, and the maps derived for
a layout pair up and, in a session of at least two ranks, pass their validation. -/
theorem derived_routes_pair (roles : Roles) :
    (∀ (fabric : Fabric) (a b : ℤ) (lanes : ℕ), a ≠ b → Connected fabric a b → lanes = 1 ∨ lanes = 2 →
      LanesPair roles fabric a b lanes) ∧
    ∀ (layout : Layout) (lanes : ℕ), lanes = 1 ∨ lanes = 2 →
      ((∃ routes, deriveRoutes roles layout lanes = .ok routes) ↔
        ∀ a ∈ layout.positions, ∀ b ∈ layout.positions, a ≠ b → Connected layout.fabric a b) ∧
      ∀ routes, deriveRoutes roles layout lanes = .ok routes →
        checkComplementary roles noMapping layout routes.routeMaps = .ok [] ∧
        (2 ≤ layout.world → ∀ rank table, routes.ranks[rank]? = some table →
          ∀ (maxRelays : ℤ) (available : Option (List String)),
            (∀ peer found, (peer, found) ∈ table.items → ∀ route ∈ found, (route.relays.length : ℤ) ≤ maxRelays) →
            (∀ active, available = some active → ∀ device ∈ namedDevices table.routeMap, device ∈ active) →
            validateRouteMap roles noMapping (some layout) maxRelays available rank layout.world table.routeMap =
              .ok lanes) := by
  refine ⟨fun fabric a b lanes hab hconnected hlanes => lanesPair hab hconnected hlanes, ?_⟩
  intro layout lanes hlanes
  refine ⟨deriveRoutes_iff roles layout hlanes, fun routes h => ⟨checkComplementary_nil h, ?_⟩⟩
  intro hworld rank table htable maxRelays available hrelays havailable
  exact validateRouteMap_ok h htable hworld hrelays havailable

local instance twoPorts : NeZero 2 := ⟨two_ne_zero⟩

/-- Four Sparks in a ring. -/
def ringOfFour : Fabric :=
  ⟨[⟨0, 0, 1, 1, by decide⟩, ⟨1, 0, 2, 1, by decide⟩, ⟨2, 0, 3, 1, by decide⟩, ⟨3, 0, 0, 1, by decide⟩], by decide⟩

/-- Opposite Sparks of a ring of four have lanes that pair, over one path each. -/
theorem derived_routes_pair_opposite : LanesPair Roles.default ringOfFour 0 2 2 :=
  (derived_routes_pair Roles.default).1 ringOfFour 0 2 2 (by decide)
    ⟨_, .cons (show ringOfFour.cross 0 0 = some ⟨⟨0, 0, 1, 1, by decide⟩, 0, 0, 1, 1⟩ from rfl)
      (.cons (show ringOfFour.cross 1 0 = some ⟨⟨1, 0, 2, 1, by decide⟩, 1, 0, 2, 1⟩ from rfl) (.nil 2))⟩ (.inr rfl)

/-- A session of one rank on a ring of four. -/
def lone : Layout := ⟨ringOfFour, [0], by decide, by decide⟩

/-- The derived map of a session of one rank has no lane that crosses a relay, and is
refused: no entry gives it a lane count. -/
theorem lone_rank_refused : ∃ routes table, deriveRoutes Roles.default lone 2 = .ok routes ∧
    routes.ranks[0]? = some table ∧
    (∀ peer found, (peer, found) ∈ table.items → ∀ route ∈ found, (route.relays.length : ℤ) ≤ 3) ∧
    validateRouteMap Roles.default noMapping (some lone) 3 none 0 lone.world table.routeMap =
      .error "rank 0's route map entries have different lane counts []" :=
  ⟨⟨lone, 2, [⟨[], by decide⟩]⟩, ⟨[], by decide⟩, rfl, rfl, fun _ _ h => absurd h List.not_mem_nil, rfl⟩

end SparkRing.Routes
