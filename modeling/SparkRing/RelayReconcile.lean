import SparkRing.RelayObjects

/-!
# From a comparison to the Spark it reconciles

A script that was given consent leaves other objects alone at every line exactly when
no other neighbour has the key of a planned one and no other route is in the way of
its sweep. The scripts of both comparisons are of this kind.
-/

namespace SparkRing.Relay

open OrderedDict
open Routes (Roles)
open List (append_nil flatMap_cons flatMap_nil forall_mem_cons forall_mem_map mem_append mem_flatMap mem_map mem_singleton)

variable {state : HostState} {roles : Roles} {adopt : Bool} {c : Command} {rules : String → List (String × ℕ)} {names : List String}

/-- What the script of an unblocked comparison is made of. -/
structure Reconciles (state : HostState) (roles : Roles) (adopt : Bool) (destinations : List String)
    (keys : List (String × String)) (emitted first : List Command) : Prop where
  /-- Every command keeps other filters. -/
  filter_safe : ∀ c ∈ emitted, FilterSafe state c
  /-- Every command keeps other qdiscs. -/
  qdisc_safe : ∀ c ∈ emitted, QdiscSafe state c
  /-- Routes of planned destinations come first, then the relay routes of the others. -/
  routes_eq : inSlot .routeSet emitted ++ inSlot .routeDel emitted =
    first ++ (state.swept roles destinations).map routeRemoval
  /-- The work on planned destinations had consent. -/
  route_work : RouteWork state roles adopt destinations first
  /-- Where no other neighbour has a planned key, every command keeps other neighbours. -/
  neighbour_safe : NeighboursClear state roles keys → ∀ c ∈ emitted, NeighbourSafe state roles adopt c
  neighbour_set : ∀ n ∈ state.neighbours, n.owned = false → state.isRelayNeighbour roles n = false → n.key ∈ keys →
    ∃ c ∈ emitted, c.neighbourKey = some n.key

/-- The script leaves other objects alone at every line exactly when no other
neighbour has a planned key and no other route is in the way. -/
theorem Reconciles.untouched_iff {destinations : List String} {keys : List (String × String)}
    {emitted first : List Command} {hostname : String} (h : Reconciles state roles adopt destinations keys emitted first) :
    (∀ lines, lines <+: scriptLines hostname emitted → state.Untouched roles adopt (state.toHost.run lines)) ↔
      NeighboursClear state roles keys ∧ RoutesClear state roles adopt destinations := by
  constructor
  · intro hall
    have hfull := hall _ (List.prefix_refl _)
    constructor
    · intro n hn hperm hown hrelay hkey
      obtain ⟨c, hc, hck⟩ := h.neighbour_set n hn hown hrelay hkey
      have hslot : c.slot ≠ none := by
        cases c <;> simp_all [Command.slot, Command.neighbourKey]
      exact neighbours_run_ne (scriptLines_of_mem hc hslot) hck hn
        (protectedNeighbour_of_clear hperm hown hrelay) hfull.neighbours
    refine h.route_work.clear_of_keeps ?_
    have hroutes := hfull.routes
    rwa [Host.run_routes, filter_scriptLines, h.routes_eq] at hroutes
  · rintro ⟨hneighbours, hroutes⟩ lines hlines
    have hline : ∀ c ∈ lines, c ∈ emitted ∨ c = .strict ∨ c = .guard hostname ∨ c = .settle := fun c hc =>
      mem_scriptLines (hlines.subset hc)
    have hsafe : ∀ c ∈ lines, FilterSafe state c ∧ QdiscSafe state c ∧ NeighbourSafe state roles adopt c := by
      intro c hc
      obtain hc | rfl | rfl | rfl := hline c hc
      · exact ⟨h.filter_safe c hc, h.qdisc_safe c hc, h.neighbour_safe hneighbours c hc⟩
      · exact ⟨trivial, trivial, fun _ _ hno => by simp [Command.neighbourKey] at hno⟩
      · exact ⟨trivial, trivial, fun _ _ hno => by simp [Command.neighbourKey] at hno⟩
      · exact ⟨trivial, trivial, fun _ _ hno => by simp [Command.neighbourKey] at hno⟩
    refine ⟨?_, ?_, ?_, ?_⟩
    · rw [Host.run_routes]
      refine h.route_work.keeps hroutes ?_
      rw [← h.routes_eq, ← filter_scriptLines hostname emitted]
      exact hlines.filter _
    · exact Host.run_keeps
        (P := fun host => host.neighbours.filter (state.protectedNeighbour roles adopt) =
          state.neighbours.filter (state.protectedNeighbour roles adopt))
        (fun c hc _ hk => neighbours_exec (hsafe c hc).2.2 hk) rfl
    · exact Host.run_keeps
        (P := fun host => ∀ netdev, ((host.filters netdev).filter fun f => !f.reserved) =
          (state.filters netdev).filter fun f => !f.reserved)
        (fun c hc _ hk => filters_exec (hsafe c hc).1 hk) fun _ => rfl
    exact Host.run_keeps
      (P := fun host => ∀ netdev kind, state.ingressQdisc netdev = some kind →
        netdev ∉ recordedQdiscs state.record → host.ingressQdisc netdev = some kind)
      (fun c hc _ hk => qdiscs_exec (hsafe c hc).2.1 hk) fun _ _ hk _ => hk

/-- The commands are on other objects than routes. -/
def OffRoutes (commands : List Command) : Prop := ∀ c ∈ commands, c.onRoutes = false

theorem OffRoutes.inSlot_eq {commands : List Command} (h : OffRoutes commands) :
    inSlot .routeSet commands = [] ∧ inSlot .routeDel commands = [] := by
  constructor
  · refine List.filter_eq_nil_iff.mpr fun c hc hs => ?_
    have := h c hc
    simp_all [Command.onRoutes]
  refine List.filter_eq_nil_iff.mpr fun c hc hs => ?_
  have := h c hc
  simp_all [Command.onRoutes]

theorem inSlot_append {slot : Slot} {first second : List Command} :
    inSlot slot (first ++ second) = inSlot slot first ++ inSlot slot second := List.filter_append ..

theorem inSlot_removeRoutes (routes : List RouteEntry) : inSlot .routeSet (removeRoutes routes).emitted = [] ∧
      inSlot .routeDel (removeRoutes routes).emitted = routes.map routeRemoval := by
  constructor
  · refine List.filter_eq_nil_iff.mpr fun c hc => ?_
    obtain ⟨r, -, rfl⟩ := mem_map.mp hc
    simp [routeRemoval, Command.slot]
  refine List.filter_eq_self.mpr fun c hc => ?_
  obtain ⟨r, -, rfl⟩ := mem_map.mp hc
  rfl

/-- A command on filters, qdiscs, markers or the record that is safe. -/
structure Harmless (state : HostState) (c : Command) : Prop where
  /-- It keeps other filters. -/
  filter_safe : FilterSafe state c
  /-- It keeps other qdiscs. -/
  qdisc_safe : QdiscSafe state c
  off_routes : c.onRoutes = false
  no_neighbour : c.neighbourKey = none

theorem mem_markersPart (h : c ∈ (markersPart roles state rules).emitted) : Harmless state c := by
  have hstop : ∀ pid, Harmless state (.markerStop pid) := fun _ => ⟨trivial, trivial, rfl, rfl⟩
  simp only [markersPart, Part.all_emitted, flatMap_cons, flatMap_nil, append_nil, mem_append,
    mem_map, mem_flatMap] at h
  obtain ⟨p, ⟨device, -, rfl⟩, hc⟩ | ⟨p, -, rfl⟩ := h
  · simp only [markerPart] at hc
    split_ifs at hc
    · simp at hc
    · obtain ⟨p, -, rfl⟩ := mem_map.mp hc
      exact hstop p.pid
    · simp at hc
    all_goals
      obtain hc | hc := mem_append.mp hc
      · obtain ⟨p, -, rfl⟩ := mem_map.mp hc
        exact hstop p.pid
      · rw [mem_singleton.mp hc]
        exact ⟨trivial, trivial, rfl, rfl⟩
  · exact hstop p.pid

theorem markersPart_sound : (markersPart roles state rules).Sound := by
  refine Part.sound_all ?_
  simp only [forall_mem_cons]
  refine ⟨Part.sound_all (forall_mem_map.mpr fun device _ => ?_), fun hne => ?_, nofun⟩
  · simp only [markerPart]
    split_ifs
    · exact Part.sound_nothing
    · exact Part.sound_of_change (mem_singleton.mpr rfl) nofun
    · exact fun h => absurd rfl h
    all_goals exact Part.sound_of_change (mem_singleton.mpr rfl) nofun
  obtain ⟨c, hc⟩ := List.exists_mem_of_ne_nil _ hne
  obtain ⟨p, hp, -⟩ := mem_map.mp hc
  exact ⟨_, mem_map.mpr ⟨p, hp, rfl⟩, nofun⟩

theorem removeQdiscs_sound {netdevs : List String} : (removeQdiscs netdevs).Sound := by
  intro hne
  obtain ⟨c, hc⟩ := List.exists_mem_of_ne_nil _ hne
  obtain ⟨netdev, hn, -⟩ := mem_map.mp hc
  exact ⟨_, mem_map.mpr ⟨netdev, hn, rfl⟩, nofun⟩

theorem mem_sortedNames {name : String} : name ∈ sortedNames names ↔ name ∈ names := by
  simp [sortedNames, List.mem_insertionSort]

/-- A removed qdisc is recorded and holds reserved filters only. -/
theorem mem_removeQdiscs {needed : String → Bool} {removed : String → ℕ} (hnames : ∀ n ∈ names, n ∈ recordedQdiscs state.record)
    (hle : ∀ n, removed n ≤ (state.reservedFilters n).length)
    (h : c ∈ (removeQdiscs ((sortedNames names).filter (qdiscRemoved state needed removed))).emitted) : Harmless state c := by
  obtain ⟨netdev, hn, rfl⟩ := mem_map.mp h
  obtain ⟨hmem, hremoved⟩ := List.mem_filter.mp hn
  exact ⟨reserved_of_qdiscRemoved hremoved (hle netdev), hnames netdev (mem_sortedNames.mp hmem), rfl, rfl⟩

variable {netdev : String}

theorem mem_devicePart_harmless {planned : ℤ → Option RelayFilter}
    (h : c ∈ (devicePart state planned netdev).emitted) : Harmless state c := by
  obtain ⟨pref, hpref, identity, rfl⟩ | ⟨f, rfl⟩ := mem_devicePart h
  · exact ⟨hpref, trivial, rfl, rfl⟩
  · exact ⟨trivial, trivial, rfl, rfl⟩

variable {spark : SparkPlan}

theorem mem_filtersUp (h : c ∈ (filtersUp state spark netdev).emitted) : Harmless state c := by
  simp only [filtersUp, Part.all_emitted, flatMap_cons, flatMap_nil, append_nil, mem_append] at h
  obtain h | h := h
  · split_ifs at h
    · rw [mem_singleton.mp h]
      exact ⟨trivial, trivial, rfl, rfl⟩
    · simp at h
  · exact mem_devicePart_harmless h

theorem filtersUp_sound : (filtersUp state spark netdev).Sound := by
  refine Part.sound_all ?_
  simp only [forall_mem_cons]
  refine ⟨?_, devicePart_sound, nofun⟩
  split_ifs
  · exact Part.sound_of_change (mem_singleton.mpr rfl) nofun
  · exact Part.sound_nothing

/-- A command on a route keeps filters and qdiscs. -/
theorem safe_of_routeAt {d : String} (h : c.routeAt = some d) : FilterSafe state c ∧ QdiscSafe state c := by
  cases c <;> simp_all [Command.routeAt, FilterSafe, QdiscSafe]

theorem neighbourKey_of_routeAt {d : String} (h : c.routeAt = some d) : c.neighbourKey = none := by
  cases c <;> simp_all [Command.routeAt, Command.neighbourKey]

/-- A command on a neighbour keeps filters and qdiscs. -/
theorem safe_of_neighbourKey {key : String × String} (h : c.neighbourKey = some key) : FilterSafe state c ∧ QdiscSafe state c := by
  cases c <;> simp_all [Command.neighbourKey, FilterSafe, QdiscSafe]

theorem off_routes_of_neighbourKey {key : String × String} (h : c.neighbourKey = some key) : c.onRoutes = false := by
  cases c <;> simp_all [Command.neighbourKey, Command.onRoutes, Command.slot]

theorem neighbourSafe_of_none (h : c.neighbourKey = none) : NeighbourSafe state roles adopt c := fun _ _ hno => by
  simp [h] at hno

/-- Every command on the neighbours names one. -/
theorem mem_neighboursUp (h : c ∈ (neighboursUp state roles spark).emitted) : ∃ key, c.neighbourKey = some key := by
  simp only [neighboursUp, Part.all_emitted, flatMap_cons, flatMap_nil, append_nil, mem_append,
    mem_flatMap, mem_map] at h
  obtain ⟨p, ⟨item, -, rfl⟩, hc⟩ | hc := h
  · rw [neighbourPart_emitted.1 c hc]
    exact ⟨_, rfl⟩
  · obtain ⟨n, -, rfl⟩ := mem_map.mp hc
    exact ⟨_, rfl⟩

/-- Every command on the routes names a destination. -/
theorem mem_routesUp (h : c ∈ (routesUp state roles spark).emitted) : ∃ d, c.routeAt = some d := by
  obtain ⟨p, hp, hc⟩ := mem_flatMap.mp h
  obtain ⟨item, -, rfl⟩ := mem_map.mp hp
  split_ifs at hc
  · exact ⟨_, (mem_routePart (fun r hr => (mem_candidates.mp hr).2.1.2) hc).1⟩
  · simp at hc

theorem mem_removeRoutes {routes : List RouteEntry} (h : c ∈ (removeRoutes routes).emitted) : ∃ d, c.routeAt = some d := by
  obtain ⟨r, -, rfl⟩ := mem_map.mp h
  exact ⟨_, rfl⟩

section

variable {destinations : List String} {keys : List (String × String)} {filters routes neighbours rest : List Command}

/-- A script of harmless commands around the work on routes and neighbours. -/
theorem reconciles_of_parts (hfilters : ∀ c ∈ filters, Harmless state c) (hroutes : ∀ c ∈ routes, ∃ d, c.routeAt = some d)
    (hneighbours : ∀ c ∈ neighbours, ∃ key, c.neighbourKey = some key) (hrest : ∀ c ∈ rest, Harmless state c)
    (hwork : RouteWork state roles adopt destinations (inSlot .routeSet routes ++ inSlot .routeDel routes))
    (hkeep : NeighboursClear state roles keys → ∀ c ∈ neighbours, NeighbourSafe state roles adopt c)
    (hset : ∀ n ∈ state.neighbours, n.owned = false → state.isRelayNeighbour roles n = false → n.key ∈ keys →
      ∃ c ∈ neighbours, c.neighbourKey = some n.key) : Reconciles state roles adopt destinations keys
      (filters ++ (routes ++ ((removeRoutes (state.swept roles destinations)).emitted ++ (neighbours ++ rest))))
      (inSlot .routeSet routes ++ inSlot .routeDel routes) := by
  have hcases : ∀ c ∈ filters ++ (routes ++ ((removeRoutes (state.swept roles destinations)).emitted ++ (neighbours ++ rest))),
      Harmless state c ∨ (∃ d, c.routeAt = some d) ∨ c ∈ neighbours := by
    intro c hc
    simp only [mem_append] at hc
    obtain hc | hc | hc | hc | hc := hc
    · exact .inl (hfilters c hc)
    · exact .inr (.inl (hroutes c hc))
    · exact .inr (.inl (mem_removeRoutes hc))
    · exact .inr (.inr hc)
    · exact .inl (hrest c hc)
  have hsafe : ∀ c, Harmless state c ∨ (∃ d, c.routeAt = some d) ∨ c ∈ neighbours → FilterSafe state c ∧ QdiscSafe state c := by
    rintro c (h | ⟨d, hd⟩ | hc)
    · exact ⟨h.filter_safe, h.qdisc_safe⟩
    · exact safe_of_routeAt hd
    · obtain ⟨key, hkey⟩ := hneighbours c hc
      exact safe_of_neighbourKey hkey
  refine ⟨fun c hc => (hsafe c (hcases c hc)).1, fun c hc => (hsafe c (hcases c hc)).2, ?_, hwork, fun hclear c hc => ?_,
    fun n hn hown hrelay hkey => ?_⟩
  · have hoff : OffRoutes filters := fun c hc => (hfilters c hc).off_routes
    have hlast : OffRoutes rest := fun c hc => (hrest c hc).off_routes
    have hmiddle : OffRoutes neighbours := fun c hc => by
      obtain ⟨key, hkey⟩ := hneighbours c hc
      exact off_routes_of_neighbourKey hkey
    simp only [inSlot_append, hoff.inSlot_eq, hmiddle.inSlot_eq, hlast.inSlot_eq, inSlot_removeRoutes, List.nil_append,
      append_nil, List.append_assoc]
  · obtain h | ⟨d, hd⟩ | hc := hcases c hc
    · exact neighbourSafe_of_none h.no_neighbour
    · exact neighbourSafe_of_none (neighbourKey_of_routeAt hd)
    · exact hkeep hclear c hc
  · obtain ⟨c, hc, hkey⟩ := hset n hn hown hrelay hkey
    exact ⟨c, by simp [hc], hkey⟩

end

/-- Everything the way up emits, the record last. -/
def partUp (roles : Roles) (state : HostState) (spark : SparkPlan) (plan : GroupPlan) (written : Part) : Part :=
  .all [objectsUp roles state spark, markersPart roles state spark.markerRules,
    removeQdiscs (qdiscsUp state spark plan), written]

variable {plan : GroupPlan} {written : Part}

theorem recordedFor_sub : ∀ n ∈ recordedFor state plan, n ∈ recordedQdiscs state.record := by
  intro n hn
  unfold recordedFor at hn
  cases hrec : state.record with
  | none => simp [hrec, recordedQdiscs] at hn
  | some record =>
    rw [hrec] at hn
    by_cases hg : record.group = some plan.group
    · simpa [Option.filter, hg] using hn
    · simp [Option.filter, hg, recordedQdiscs] at hn

theorem qdiscsUp_harmless (h : c ∈ (removeQdiscs (qdiscsUp state spark plan)).emitted) : Harmless state c :=
  mem_removeQdiscs recordedFor_sub (fun n => removedFilters_le (spark.filterAt n) n) h

/-- The script of an unblocked comparison that goes up. -/
theorem reconciles_up (hwritten : ∀ c ∈ written.emitted, Harmless state c)
    (hforeign : ∀ d ∈ spark.plannedRoutes.keys, state.foreign roles d = [])
    (hconsent : Consent adopt (partUp roles state spark plan written).changes) :
    Reconciles state roles adopt spark.plannedRoutes.keys spark.plannedNeighbours.keys (partUp roles state spark plan written).emitted
      (inSlot .routeSet (routesUp state roles spark).emitted ++ inSlot .routeDel (routesUp state roles spark).emitted) := by
  have hroutes : Consent adopt (routesUp state roles spark).changes :=
    hconsent.mono fun _ hc => by simp [partUp, objectsUp, hc]
  have hstale : Consent adopt (removeRoutes (state.staleRoutes roles spark)).changes :=
    hconsent.mono fun _ hc => by simp [partUp, objectsUp, hc]
  have hneighbours : Consent adopt (neighboursUp state roles spark).changes :=
    hconsent.mono fun _ hc => by simp [partUp, objectsUp, hc]
  have hpart : ∀ item ∈ spark.plannedNeighbours.items,
      Consent adopt (neighbourPart (state.presentNeighbour roles item.1) item.1 item.2).changes := fun item hitem =>
    hneighbours.mono fun change hchange => by
      simp only [neighboursUp, Part.all_changes, flatMap_cons, mem_append, mem_flatMap, mem_map]
      exact .inl ⟨_, ⟨item, hitem, rfl⟩, hchange⟩
  have hemitted : (partUp roles state spark plan written).emitted =
      ((fabricNetdevs roles).flatMap fun netdev => (filtersUp state spark netdev).emitted) ++
        ((routesUp state roles spark).emitted ++ ((removeRoutes (state.swept roles spark.plannedRoutes.keys)).emitted ++
          ((neighboursUp state roles spark).emitted ++ ((markersPart roles state spark.markerRules).emitted ++
            ((removeQdiscs (qdiscsUp state spark plan)).emitted ++ written.emitted))))) := by
    simp only [partUp, objectsUp, Part.all_emitted, flatMap_cons, flatMap_nil, List.flatMap_map, append_nil,
      List.append_assoc]
    rfl
  rw [hemitted]
  refine reconciles_of_parts (fun c hc => ?_) (fun c => mem_routesUp) (fun c => mem_neighboursUp) (fun c hc => ?_)
    (routeWork_up hforeign hroutes hstale) (fun hclear c hc => ?_) fun n hn hown hrelay hkey => ?_
  · obtain ⟨netdev, -, hc⟩ := mem_flatMap.mp hc
    exact mem_filtersUp hc
  · simp only [mem_append] at hc
    obtain hc | hc | hc := hc
    · exact mem_markersPart hc
    · exact qdiscsUp_harmless hc
    · exact hwritten c hc
  · simp only [neighboursUp, Part.all_emitted, flatMap_cons, flatMap_nil, append_nil, mem_append,
      mem_flatMap, mem_map] at hc
    obtain ⟨p, ⟨item, hitem, rfl⟩, hc⟩ | hc := hc
    · refine neighbourPart_safe (hpart item hitem) (fun n hn hperm hown hrelay hin => ?_) hc
      exact hclear n hn hperm hown hrelay (mem_singleton.mp hin ▸ List.mem_map_of_mem hitem)
    refine removeNeighbours_safe (fun n hn => ?_) (hneighbours.mono fun change hchange => ?_) hc
    · exact (List.mem_filter.mp ((List.mem_insertionSort _).mp hn)).1
    · simp [neighboursUp, hchange]
  obtain ⟨mac, hitem⟩ := Dict.exists_mem_of_mem_keys hkey
  refine ⟨.neighReplace n.key.1 mac n.key.2, ?_, rfl⟩
  simp only [neighboursUp, Part.all_emitted, flatMap_cons, flatMap_nil, append_nil, mem_append,
    mem_flatMap, mem_map]
  exact .inl ⟨_, ⟨_, hitem, rfl⟩, neighbourPart_sets hn hown hrelay⟩

/-- Everything the way down emits, the record last. -/
def partDown (roles : Roles) (state : HostState) (removed : Part) : Part :=
  .all [objectsDown roles state, markersPart roles state fun _ => [], removeQdiscs (qdiscsDown roles state), removed]

variable {removed : Part}

theorem qdiscsDown_harmless (h : c ∈ (removeQdiscs (qdiscsDown roles state)).emitted) : Harmless state c := by
  refine mem_removeQdiscs (fun _ hn => hn) (fun n => ?_) h
  split_ifs
  · exact removedFilters_le _ n
  · exact Nat.zero_le _

theorem mem_removeNeighbours {neighbours : List NeighbourEntry} (h : c ∈ (removeNeighbours neighbours).emitted) :
    ∃ key, c.neighbourKey = some key := by
  obtain ⟨n, -, rfl⟩ := mem_map.mp h
  exact ⟨_, rfl⟩

/-- The script of an unblocked comparison that goes down. -/
theorem reconciles_down (hremoved : ∀ c ∈ removed.emitted, Harmless state c)
    (hconsent : Consent adopt (partDown roles state removed).changes) :
    Reconciles state roles adopt [] [] (partDown roles state removed).emitted [] := by
  have hroutes : Consent adopt (removeRoutes (state.relayRoutes roles)).changes :=
    hconsent.mono fun _ hc => by simp [partDown, objectsDown, hc]
  have hneighbours : Consent adopt (removeNeighbours (state.relayNeighbours roles)).changes :=
    hconsent.mono fun _ hc => by simp [partDown, objectsDown, hc]
  have hswept : state.swept roles [] = state.relayRoutes roles := List.filter_eq_self.mpr fun _ _ => by simp [stale]
  have hemitted : (partDown roles state removed).emitted =
      ((fabricNetdevs roles).flatMap fun netdev => (devicePart state (fun _ => none) netdev).emitted) ++
        ([] ++ ((removeRoutes (state.swept roles [])).emitted ++
          ((removeNeighbours (state.relayNeighbours roles)).emitted ++
            ((markersPart roles state fun _ => []).emitted ++
              ((removeQdiscs (qdiscsDown roles state)).emitted ++ removed.emitted))))) := by
    simp [partDown, objectsDown, List.flatMap_map, hswept]
  rw [hemitted]
  refine reconciles_of_parts (fun c hc => ?_) nofun (fun c => mem_removeNeighbours) (fun c hc => ?_) (routeWork_down hroutes)
    (fun _ c => removeNeighbours_safe (fun _ hn => hn) hneighbours) nofun
  · obtain ⟨netdev, -, hc⟩ := mem_flatMap.mp hc
    exact mem_devicePart_harmless hc
  simp only [mem_append] at hc
  obtain hc | hc | hc := hc
  · exact mem_markersPart hc
  · exact qdiscsDown_harmless hc
  · exact hremoved c hc

theorem partUp_sound (hwritten : written.Sound) : (partUp roles state spark plan written).Sound := by
  refine Part.sound_all ?_
  simp only [forall_mem_cons]
  refine ⟨Part.sound_all ?_, markersPart_sound, removeQdiscs_sound, hwritten, nofun⟩
  simp only [forall_mem_cons]
  refine ⟨Part.sound_all (forall_mem_map.mpr fun _ _ => filtersUp_sound),
    Part.sound_all (forall_mem_map.mpr fun item _ => ?_), removeRoutes_sound, Part.sound_all ?_, nofun⟩
  · split_ifs
    · exact routePart_sound
    · exact Part.sound_nothing
  · simp only [forall_mem_cons]
    exact ⟨Part.sound_all (forall_mem_map.mpr fun _ _ => neighbourPart_sound), removeNeighbours_sound, nofun⟩

theorem partDown_sound (hremoved : removed.Sound) : (partDown roles state removed).Sound := by
  refine Part.sound_all ?_
  simp only [forall_mem_cons]
  refine ⟨Part.sound_all ?_, markersPart_sound, removeQdiscs_sound, hremoved, nofun⟩
  simp only [forall_mem_cons]
  exact ⟨Part.sound_all (forall_mem_map.mpr fun _ _ => devicePart_sound), removeRoutes_sound, removeNeighbours_sound,
    nofun⟩

end SparkRing.Relay
