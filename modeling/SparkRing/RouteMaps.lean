import SparkRing.RouteLanes

/-!
# Route maps, their validation and the pairing of lanes

A rank's route map names the local devices of its lanes toward every peer. One
rank's map is checked before setup; the pairing check looks at both ends of
every lane of a group.
-/

namespace SparkRing.Routes

variable {α : Type*} {there here : ℤ}

/-- A table has something for a peer exactly when it lists it. -/
theorem PeerTable.get?_eq_some {table : PeerTable α} {peer : ℕ} {x : α} : table.get? peer = some x ↔ (peer, x) ∈ table.items := by
  rw [PeerTable.get?]
  obtain ⟨items, distinct⟩ := table
  induction items with
  | nil => simp
  | cons entry rest ih =>
    obtain ⟨known, y⟩ := entry
    rw [List.map_cons, List.nodup_cons] at distinct
    rw [List.lookup_cons, List.mem_cons, Prod.mk.injEq]
    by_cases h : peer = known
    · subst h
      have hout : (peer, x) ∉ rest := fun hmem => distinct.1 (List.mem_map.mpr ⟨(peer, x), hmem, rfl⟩)
      simp [hout, eq_comm]
    · rw [beq_false_of_ne h]
      simpa [h] using ih distinct.2

/-- A table has something for the peers it lists. -/
theorem PeerTable.get?_isSome {table : PeerTable α} {peer : ℕ} : (table.get? peer).isSome ↔ ∃ x, (peer, x) ∈ table.items := by
  simp only [Option.isSome_iff_exists, PeerTable.get?_eq_some]

/-- Sorting keeps what is listed. -/
theorem PeerTable.mem_sorted {table : PeerTable α} {entry : ℕ × α} : entry ∈ table.sorted ↔ entry ∈ table.items := by
  rw [PeerTable.sorted, List.mem_insertionSort]

/-- Sorting keeps the peers listed once. -/
theorem PeerTable.sorted_distinct (table : PeerTable α) : (table.sorted.map Prod.fst).Nodup :=
  ((List.perm_insertionSort _ table.items).map Prod.fst).nodup_iff.mpr table.distinct

/-- Peer rank to lane device names. -/
def PeerTable.routeMap (table : PeerTable (List LaneRoute)) : RouteMap :=
  ⟨table.sorted.map fun entry => (entry.1, entry.2.map fun lane => lane.localRole.device), by
    rw [List.map_map]
    exact table.sorted_distinct⟩

/-- The route map names the device of every lane. -/
theorem PeerTable.mem_routeMap {table : PeerTable (List LaneRoute)} {peer : ℕ} {devices : List String} :
    (peer, devices) ∈ table.routeMap.items ↔
      ∃ found, (peer, found) ∈ table.items ∧ found.map (fun lane => lane.localRole.device) = devices := by
  simp only [PeerTable.routeMap, List.mem_map, PeerTable.mem_sorted, Prod.exists, Prod.mk.injEq]
  constructor
  · rintro ⟨known, found, hmem, rfl, hdevices⟩
    exact ⟨found, hmem, hdevices⟩
  · rintro ⟨found, hmem, hdevices⟩
    exact ⟨peer, found, hmem, rfl, hdevices⟩

def GroupRoutes.routeMap (routes : GroupRoutes) (rank : ℕ) : Option RouteMap :=
  (routes.ranks[rank]?).map PeerTable.routeMap

def GroupRoutes.routeMaps (routes : GroupRoutes) : List RouteMap := routes.ranks.map PeerTable.routeMap

/-- Most lanes toward a peer. -/
def maxLanes : ℕ := 2

/-- Most devices of a rank. -/
def maxDevices : ℕ := 4

/-- Every other rank is named and no other, the own rank included. -/
def validateRanks (rank world : ℕ) (routes : RouteMap) : Except String Unit :=
  if ¬rank < world then .error s!"rank {rank} is outside a session of {world}"
  else if (routes.get? rank).isSome then .error s!"rank {rank}'s route map names its own rank"
  else match (List.range world).filter fun peer => peer ≠ rank ∧ ¬(routes.get? peer).isSome with
    | peer :: _ => .error s!"rank {rank}'s route map has no entry for rank {peer}"
    | [] =>
      match (routes.sorted.map Prod.fst).filter fun peer => ¬peer < world with
      | peer :: _ => .error s!"rank {rank}'s route map names rank {peer}, outside the session"
      | [] => .ok ()

/-- The lane count of every entry, one or two. -/
def validateLaneCount (rank : ℕ) (routes : RouteMap) : Except String ℕ :=
  match (routes.items.map fun entry => entry.2.length).dedup with
  | [lanes] =>
    if ¬(1 ≤ lanes ∧ lanes ≤ maxLanes) then
      .error s!"rank {rank}'s route map has {lanes} lanes per peer; one or two are supported"
    else .ok lanes
  | counts =>
    .error s!"rank {rank}'s route map entries have different lane counts {counts.insertionSort (· ≤ ·)}"

/-- One entry has distinct named devices. -/
def validateEntry (rank peer : ℕ) (devices : List String) : Except String Unit :=
  if "" ∈ devices then .error s!"rank {rank}'s entry for rank {peer} has an empty device name"
  else if ¬devices.Nodup then
    let first := devices.headD ""
    .error s!"rank {rank}'s entry for rank {peer} names device {first} twice"
  else .ok ()

/-- Devices of a route map, each where it is first named. -/
def namedDevices (routes : RouteMap) : List String := ((routes.sorted.flatMap Prod.snd).reverse.dedup).reverse

/-- One to four devices in all, each active where the active ones are known. -/
def validateDevices (rank : ℕ) (routes : RouteMap) (available : Option (List String)) : Except String Unit :=
  let named := namedDevices routes
  if ¬(1 ≤ named.length ∧ named.length ≤ maxDevices) then
    .error s!"rank {rank}'s route map names {named.length} devices; 1 to {maxDevices} are supported"
  else match available with
    | none => .ok ()
    | some active => named.forM fun device =>
      if device ∈ active then .ok ()
      else .error s!"rank {rank}'s route map names device {device}, which is not an active RDMA device of this host"

/-- One lane stays inside the fabric and crosses few enough relays. -/
def validateLane (roles : Roles) (mapping : String → Option Role) (layout : Layout) (maxRelays : ℤ) (rank : ℕ)
    (start : ℤ) (peer lane : ℕ) (device : String) : Except String Unit :=
  match roles.roleOf mapping device with
  | none =>
    .error (s!"rank {rank} lane {lane} toward rank {peer} uses device {device}, " ++
      "whose port and function the layout check cannot tell")
  | some role =>
    match layout.positions[peer]? with
    | none => .error "tuple index out of range"
    | some target =>
      match layout.fabric.walk start role.port target layout.fabric.positions.length with
      | none =>
        .error (s!"rank {rank} lane {lane} toward rank {peer} leaves through {device} (port {role.port}) and " ++
          "crosses a Spark outside the group's fabric")
      | some steps =>
        if maxRelays < (steps.length : ℤ) - 1 then
          .error (s!"rank {rank} lane {lane} toward rank {peer} crosses {steps.length - 1} relays; the " ++
            s!"qualified limit is {maxRelays} (SIRCL_MAX_RELAYS raises it, research-only)")
        else .ok ()

/-- Every lane of a map stays inside the layout's fabric. -/
def validateLayout (roles : Roles) (mapping : String → Option Role) (layout : Layout) (maxRelays : ℤ)
    (rank world : ℕ) (routes : RouteMap) : Except String Unit :=
  if layout.world ≠ world then .error s!"layout has {layout.world} ranks, the session {world}"
  else match layout.positions[rank]? with
    | none => .error "tuple index out of range"
    | some start => routes.sorted.forM fun entry => entry.2.zipIdx.forM fun device =>
        validateLane roles mapping layout maxRelays rank start entry.1 device.2 device.1

/-- Check one rank's route map; return its lane count. -/
def validateRouteMap (roles : Roles) (mapping : String → Option Role) (layout : Option Layout) (maxRelays : ℤ)
    (available : Option (List String)) (rank world : ℕ) (routes : RouteMap) : Except String ℕ := do
  validateRanks rank world routes
  let lanes ← validateLaneCount rank routes
  routes.sorted.forM fun entry => validateEntry rank entry.1 entry.2
  validateDevices rank routes available
  match layout with
  | none => .ok lanes
  | some layout => do
    validateLayout roles mapping layout maxRelays rank world routes
    .ok lanes

/-- Problems with one lane: its counterpart must be the function of its class on the
port where it arrives. -/
def laneProblems (roles : Roles) (mapping : String → Option Role) (layout : Layout) (routeMaps : List RouteMap)
    (rank peer lane : ℕ) (device : String) : Except String (List String) :=
  match routeMaps[peer]? with
  | none => .error "list index out of range"
  | some theirs =>
    match roles.roleOf mapping device, ((theirs.get? rank).getD [])[lane]? with
    | some mine, some theirsDevice =>
      match layout.positions[rank]?, layout.positions[peer]? with
      | some here, some there =>
        match layout.fabric.walk here mine.port there layout.fabric.positions.length with
        | none => .ok [s!"lane {lane} of rank {rank} toward rank {peer} does not reach it"]
        | some steps =>
          match steps.getLast? with
          | none => .error "tuple index out of range"
          | some last => do
            let expected ← roles.roleAt last.dstPort mine.secondary
            if roles.roleOf mapping theirsDevice = some expected then .ok []
            else .ok [s!"lane {lane} of rank {rank} leaves through port {mine.port} and arrives on rank {peer}'s " ++
              s!"port {last.dstPort} ({expected.device}), but rank {peer} lists {theirsDevice} for lane {lane}"]
      | _, _ => .error "tuple index out of range"
    | _, _ => .ok [s!"lane {lane} between ranks {rank} and {peer} cannot be checked"]

/-- Problems with the cross-rank pairing of lanes. -/
def checkComplementary (roles : Roles) (mapping : String → Option Role) (layout : Layout)
    (routeMaps : List RouteMap) : Except String (List String) := do
  let problems ← routeMaps.zipIdx.mapM fun entry => entry.1.sorted.mapM fun item => item.2.zipIdx.mapM fun device =>
    laneProblems roles mapping layout routeMaps entry.2 item.1 device.2 device.1
  .ok problems.flatten.flatten.flatten

variable {roles : Roles} {layout : Layout} {lanes rank peer : ℕ} {routes : GroupRoutes}
  {table : PeerTable (List LaneRoute)}

/-- Pairs of keys and results are those of the elements. -/
theorem mem_zip_forall₂ {ε α β κ : Type*} {f : α → Except ε β} {key : α → κ} {l : List α} {ys : List β}
    (h : List.Forall₂ (fun x y => f x = .ok y) l ys) (k : κ) (y : β) :
    (k, y) ∈ (l.map key).zip ys ↔ ∃ x ∈ l, key x = k ∧ f x = .ok y := by
  induction h with
  | nil => simp
  | @cons x y' l ys hx _ ih =>
    rw [List.map_cons, List.zip_cons_cons, List.mem_cons, Prod.mk.injEq, ih]
    constructor
    · rintro (⟨rfl, rfl⟩ | ⟨x', hmem, hx'⟩)
      · exact ⟨x, List.mem_cons_self, rfl, hx⟩
      · exact ⟨x', List.mem_cons_of_mem x hmem, hx'⟩
    rintro ⟨x', hmem, hkey, hx'⟩
    rcases List.mem_cons.mp hmem with rfl | hmem
    · exact .inl ⟨hkey.symm, Except.ok.inj (hx'.symm.trans hx)⟩
    · exact .inr ⟨x', hmem, hkey, hx'⟩

theorem Layout.mem_peers : (there, peer) ∈ layout.peers rank ↔ layout.positions[peer]? = some there ∧ peer ≠ rank := by
  simp only [Layout.peers, List.mem_filter, List.mk_mem_zipIdx_iff_getElem?, decide_eq_true_eq]

/-- A derived table has the lanes toward every peer. -/
theorem deriveRank_spec (h : deriveRank roles layout lanes rank here = .ok table) {found : List LaneRoute} :
    (peer, found) ∈ table.items ↔ ∃ there, layout.positions[peer]? = some there ∧ peer ≠ rank ∧
      deriveLanes roles layout.fabric here there lanes = .ok found := by
  rw [deriveRank] at h
  cases hroutes : (layout.peers rank).mapM fun entry => deriveLanes roles layout.fabric here entry.1 lanes with
  | error => simp [hroutes, bind, Except.bind] at h
  | ok =>
    simp only [hroutes, bind, Except.bind] at h
    obtain rfl := Except.ok.inj h
    rw [mem_zip_forall₂ (mapM_ok_iff.mp hroutes)]
    constructor
    · rintro ⟨⟨there, known⟩, hmem, rfl, hfound⟩
      obtain ⟨hthere, hne⟩ := Layout.mem_peers.mp hmem
      exact ⟨there, hthere, hne, hfound⟩
    · rintro ⟨there, hthere, hne, hfound⟩
      exact ⟨(there, peer), Layout.mem_peers.mpr ⟨hthere, hne⟩, rfl, hfound⟩

theorem deriveRank_total (h : deriveRank roles layout lanes rank here = .ok table)
    (hthere : layout.positions[peer]? = some there) (hne : peer ≠ rank) :
    ∃ found, deriveLanes roles layout.fabric here there lanes = .ok found := by
  rw [deriveRank] at h
  cases hroutes : (layout.peers rank).mapM fun entry => deriveLanes roles layout.fabric here entry.1 lanes with
  | error => simp [hroutes, bind, Except.bind] at h
  | ok =>
    obtain ⟨i, hi, heq⟩ := List.mem_iff_getElem.mp (Layout.mem_peers.mpr ⟨hthere, hne⟩)
    have hall := mapM_ok_iff.mp hroutes
    have hderived := (List.forall₂_iff_get.mp hall).2 i hi (hall.length_eq ▸ hi)
    rw [List.get_eq_getElem, heq] at hderived
    exact ⟨_, hderived⟩

/-- Derived routes keep their layout and lane count, and have the table of every rank. -/
theorem deriveRoutes_spec (h : deriveRoutes roles layout lanes = .ok routes) :
    routes.layout = layout ∧ routes.lanes = lanes ∧ routes.ranks.length = layout.world ∧
      ∀ rank table, routes.ranks[rank]? = some table → ∃ here, layout.positions[rank]? = some here ∧
        deriveRank roles layout lanes rank here = .ok table := by
  rw [deriveRoutes] at h
  cases hranks : layout.positions.zipIdx.mapM fun entry => deriveRank roles layout lanes entry.2 entry.1 with
  | error => simp [hranks, bind, Except.bind] at h
  | ok =>
    simp only [hranks, bind, Except.bind] at h
    obtain rfl := Except.ok.inj h
    have hall := mapM_ok_iff.mp hranks
    have hlength := hall.length_eq
    rw [List.length_zipIdx] at hlength
    refine ⟨rfl, rfl, hlength.symm, fun rank table htable => ?_⟩
    obtain ⟨hlt, rfl⟩ := List.getElem?_eq_some_iff.mp htable
    have hposition : rank < layout.positions.length := hlength ▸ hlt
    have hrank := (List.forall₂_iff_get.mp hall).2 rank (by rwa [List.length_zipIdx]) hlt
    refine ⟨layout.positions[rank], List.getElem?_eq_getElem hposition, ?_⟩
    simpa using hrank

/-- Routes are derived exactly where the positions are connected. -/
theorem deriveRoutes_iff (roles : Roles) (layout : Layout) (hlanes : lanes = 1 ∨ lanes = 2) :
    (∃ routes, deriveRoutes roles layout lanes = .ok routes) ↔
      ∀ a ∈ layout.positions, ∀ b ∈ layout.positions, a ≠ b → Connected layout.fabric a b := by
  constructor
  · rintro ⟨routes, h⟩ a ha b hb hab
    obtain ⟨-, -, hlength, hranks⟩ := deriveRoutes_spec h
    obtain ⟨rank, hrank, rfl⟩ := List.mem_iff_getElem.mp ha
    obtain ⟨peer, hpeer, rfl⟩ := List.mem_iff_getElem.mp hb
    have hlt : rank < routes.ranks.length := hlength.symm ▸ hrank
    obtain ⟨here, hhere, htable⟩ := hranks rank _ (List.getElem?_eq_getElem hlt)
    rw [List.getElem?_eq_getElem hrank] at hhere
    obtain rfl := Option.some.inj hhere
    have hne : peer ≠ rank := by
      rintro rfl
      exact hab rfl
    obtain ⟨found, hfound⟩ := deriveRank_total htable (List.getElem?_eq_getElem hpeer) hne
    exact (deriveLanes_connected hfound).2.1
  · intro hall
    have hrank : ∀ entry ∈ layout.positions.zipIdx,
        ∃ table, deriveRank roles layout lanes entry.2 entry.1 = .ok table ∧ True := by
      rintro ⟨here, rank⟩ hentry
      have hhere := List.mk_mem_zipIdx_iff_getElem?.mp hentry
      have hlane : ∀ entry ∈ layout.peers rank,
          ∃ found, deriveLanes roles layout.fabric here entry.1 lanes = .ok found ∧ True := by
        rintro ⟨there, peer⟩ hmem
        obtain ⟨hthere, hne⟩ := Layout.mem_peers.mp hmem
        have hab : here ≠ there := by
          rintro rfl
          have hlt := (List.getElem?_eq_some_iff.mp hthere).1
          exact hne ((List.getElem?_inj hlt layout.distinct).mp (hthere.trans hhere.symm))
        have hconnected := hall here (List.mem_of_getElem? hhere) there (List.mem_of_getElem? hthere) hab
        obtain ⟨-, -, found, -, hfound, -⟩ := deriveLanes_ok roles hab hconnected hlanes
        exact ⟨found, hfound, trivial⟩
      obtain ⟨found, hfound, -⟩ := exists_mapM hlane
      refine ⟨⟨((layout.peers rank).map Prod.snd).zip found,
        (layout.peers_nodup rank).sublist (map_fst_zip_sublist _ _)⟩, ?_, trivial⟩
      rw [deriveRank, hfound]
      rfl
    obtain ⟨ranks, hranks, -⟩ := exists_mapM hrank
    refine ⟨⟨layout, lanes, ranks⟩, ?_⟩
    rw [deriveRoutes, hranks]
    rfl

end SparkRing.Routes
