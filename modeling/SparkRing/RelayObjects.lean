import SparkRing.RelayWork

/-!
# The routes and neighbours a comparison names

With consent every route that may be changed at a planned destination is owned or was
adopted, and so is every relay neighbour a command names. The one object a comparison
overlooks is a permanent neighbour that is no relay neighbour: the command that sets
a planned neighbour of the same address and device replaces it.
-/

namespace SparkRing.Relay

open OrderedDict
open Routes (Roles)
open List (mem_filter mem_map mem_singleton)
open HostState (cleared protectedNeighbour protectedRoute)

variable {state : HostState} {roles : Roles} {adopt : Bool} {spark : SparkPlan} {c : Command} {present : Option NeighbourEntry}

variable {candidates : List RouteEntry} {destination : String} {route : OriginRoute} {r : RouteEntry}

/-- Without consent for unowned routes, all that may be changed are owned. -/
theorem owned_of_routePart (h : ∀ change ∈ (routePart candidates destination route).changes, change.unowned = true → change.action = .keep)
    (hr : r ∈ candidates) : r.owned = true := by
  by_contra hun
  have hun : (!r.owned) = true := by simpa using hun
  have hremoved : ∀ routes : List RouteEntry, r ∈ routes →
      (⟨.remove, .route r.destination, true⟩ : Change) ∈ (removeRoutes routes).changes := by
    intro routes hr
    refine mem_map.mpr ⟨r, hr, ?_⟩
    rw [hun]
  simp only [routePart, Part.all_changes, List.flatMap_cons, List.flatMap_nil, List.append_nil, List.mem_append] at h
  cases hkept : inPlace candidates destination route.netdev route.source with
  | none =>
    rw [hkept] at h
    exact Action.noConfusion (h _ (.inl (hremoved _ hr)) rfl)
  | some k =>
    rw [hkept] at h
    by_cases hk : r = k
    · subst hk
      cases hequal : candidates.find? (routeEqual destination route.netdev route.source) with
      | some equal =>
        obtain rfl : equal = r := by simpa [inPlace, hequal] using hkept
        have hmark := h ⟨.mark, .route destination, true⟩ (.inr (by simp only [hequal]; simp_all)) rfl
        exact Action.noConfusion hmark
      | none =>
        have hreplace := h ⟨.replace, .route destination, !r.owned⟩ (.inr (by simp [hequal])) hun
        exact Action.noConfusion hreplace
    · have hmem : r ∈ candidates.erase k := (List.mem_erase_of_ne hk).mpr hr
      exact Action.noConfusion (h _ (.inl (hremoved _ hmem)) rfl)

/-- The commands on the routes of a planned destination name it. -/
theorem mem_routePart (hdest : ∀ r ∈ candidates, r.destination = destination) (h : c ∈ (routePart candidates destination route).emitted) :
    c.routeAt = some destination ∧ c.onRoutes = true := by
  simp only [routePart, Part.all_emitted, List.flatMap_cons, List.flatMap_nil, List.append_nil, List.mem_append] at h
  have hremove : ∀ routes : List RouteEntry, (∀ r ∈ routes, r ∈ candidates) → c ∈ (removeRoutes routes).emitted →
      c.routeAt = some destination ∧ c.onRoutes = true := by
    intro routes hsub hc
    obtain ⟨r, hr, rfl⟩ := mem_map.mp hc
    exact ⟨congrArg some (hdest r (hsub r hr)), rfl⟩
  obtain h | h := h
  · cases hkept : inPlace candidates destination route.netdev route.source with
    | none =>
      rw [hkept] at h
      exact hremove _ (fun _ hr => hr) h
    | some =>
      rw [hkept] at h
      exact hremove _ (fun r hr => List.mem_of_mem_erase hr) h
  have hset : c = .routeReplace destination route.netdev route.source := by
    split at h
    · split_ifs at h with hown
      · simp at h
      · exact mem_singleton.mp h
    split at h
    · exact mem_singleton.mp h
    · exact mem_singleton.mp h
  rw [hset]
  exact ⟨rfl, rfl⟩

theorem routePart_sound : (routePart candidates destination route).Sound := by
  refine Part.sound_all fun p hp => ?_
  simp only [List.mem_cons, List.not_mem_nil, or_false] at hp
  obtain rfl | rfl := hp
  · intro hne
    obtain ⟨c, hc⟩ := List.exists_mem_of_ne_nil _ hne
    obtain ⟨r, hr, -⟩ := mem_map.mp hc
    exact ⟨_, mem_map.mpr ⟨r, hr, rfl⟩, nofun⟩
  split
  · split_ifs
    · exact fun h => absurd rfl h
    · exact Part.sound_of_change (mem_singleton.mpr rfl) nofun
  split
  · exact Part.sound_of_change (mem_singleton.mpr rfl) nofun
  · exact Part.sound_of_change (mem_singleton.mpr rfl) nofun

theorem removeRoutes_sound {routes : List RouteEntry} : (removeRoutes routes).Sound := by
  intro hne
  obtain ⟨c, hc⟩ := List.exists_mem_of_ne_nil _ hne
  obtain ⟨r, hr, -⟩ := mem_map.mp hc
  exact ⟨_, mem_map.mpr ⟨r, hr, rfl⟩, nofun⟩

/-- The candidates of a destination are routes to it that are owned or relay routes. -/
theorem mem_candidates : r ∈ state.candidates roles destination ↔
      r ∈ state.routes ∧ (r.prefixlen = 32 ∧ r.destination = destination) ∧ state.cleared roles r = true := by
  simp only [HostState.candidates, HostState.hostRoutes, cleared, mem_filter, decide_eq_true_eq]
  tauto

/-- A destination without other routes has candidates only. -/
theorem cleared_of_foreign (h : state.foreign roles destination = [])
    (hr : r ∈ state.routes) (h32 : r.prefixlen = 32) (hd : r.destination = destination) : state.cleared roles r = true := by
  have hnot := List.filter_eq_nil_iff.mp h r (mem_filter.mpr ⟨hr, by simp [h32, hd]⟩)
  unfold cleared
  simpa only [Bool.not_eq_true', Bool.not_eq_false] using hnot

theorem foreign_of_routeBlockers (h : routeBlockers state roles destination = []) : state.foreign roles destination = [] := by
  unfold routeBlockers at h
  split at h
  · assumption
  · simp at h

/-- A protected route is not cleared with consent. -/
theorem not_protected_of_cleared (h : state.cleared roles r = true)
    (hown : adopt = true ∨ r.owned = true) : state.protectedRoute roles adopt r = false := by
  simp only [cleared, Bool.or_eq_true] at h
  cases ho : r.owned with
  | true => simp [protectedRoute, ho]
  | false =>
    have hadopt : adopt = true := hown.resolve_right (by simp [ho])
    simp [protectedRoute, ho, hadopt, h.resolve_left (by simp [ho])]

/-- The work on routes of an unblocked comparison that goes up. -/
theorem routeWork_up (hforeign : ∀ d ∈ spark.plannedRoutes.keys, state.foreign roles d = [])
    (hroutes : Consent adopt (routesUp state roles spark).changes)
    (hstale : Consent adopt (removeRoutes (state.staleRoutes roles spark)).changes) : RouteWork state roles adopt spark.plannedRoutes.keys
      (inSlot .routeSet (routesUp state roles spark).emitted ++ inSlot .routeDel (routesUp state roles spark).emitted) where
  first_planned c hc d hd := by
    have hc : c ∈ (routesUp state roles spark).emitted := by
      obtain h | h := List.mem_append.mp hc
      · exact (mem_filter.mp h).1
      · exact (mem_filter.mp h).1
    obtain ⟨p, hp, hc⟩ := List.mem_flatMap.mp hc
    obtain ⟨item, hitem, rfl⟩ := mem_map.mp hp
    have hkey : item.1 ∈ spark.plannedRoutes.keys := List.mem_map_of_mem hitem
    rw [if_pos (hforeign _ hkey)] at hc
    have hat := (mem_routePart (fun r hr => (mem_candidates.mp hr).2.1.2) hc).1
    rw [hd] at hat
    exact Option.some.inj hat ▸ hkey
  planned_free r hr h32 hd := by
    have hcleared := cleared_of_foreign (hforeign _ hd) hr h32 rfl
    refine not_protected_of_cleared hcleared (hroutes.imp_right fun hkeep => ?_)
    obtain ⟨route, hitem⟩ := Dict.exists_mem_of_mem_keys hd
    have hpart : ∀ change ∈ (routePart (state.candidates roles r.destination) r.destination route).changes,
        change ∈ (routesUp state roles spark).changes := by
      intro change hchange
      refine List.mem_flatMap.mpr ⟨_, mem_map.mpr ⟨_, hitem, rfl⟩, ?_⟩
      rw [if_pos (hforeign _ hd)]
      exact hchange
    exact owned_of_routePart (fun change hchange => hkeep change (hpart change hchange))
      (mem_candidates.mpr ⟨hr, ⟨h32, rfl⟩, hcleared⟩)
  consent r hr hcleared hd := by
    refine hstale.imp_right fun hkeep => ?_
    by_contra hun
    have hmem : r ∈ state.staleRoutes roles spark :=
      mem_filter.mpr ⟨mem_filter.mpr ⟨hr, hcleared⟩, decide_eq_true hd⟩
    exact Action.noConfusion (hkeep _ (mem_map.mpr ⟨r, hmem, rfl⟩) (by simpa using hun))

/-- The work on routes of an unblocked comparison that goes down. -/
theorem routeWork_down (h : Consent adopt (removeRoutes (state.relayRoutes roles)).changes) : RouteWork state roles adopt [] [] where
  first_planned _ hc := absurd hc List.not_mem_nil
  planned_free _ _ _ hd := absurd hd List.not_mem_nil
  consent r hr hcleared _ := by
    refine h.imp_right fun hkeep => ?_
    by_contra hun
    exact Action.noConfusion
      (hkeep _ (mem_map.mpr ⟨r, mem_filter.mpr ⟨hr, hcleared⟩, rfl⟩) (by simpa using hun))

/-- A neighbour the installer clears away. -/
def HostState.clearedNeighbour (state : HostState) (roles : Roles) (n : NeighbourEntry) : Bool :=
  n.owned || state.isRelayNeighbour roles n

variable {n : NeighbourEntry}

/-- A protected neighbour is not cleared with consent. -/
theorem not_protected_of_clearedNeighbour (h : state.clearedNeighbour roles n = true)
    (hown : adopt = true ∨ n.owned = true) : state.protectedNeighbour roles adopt n = false := by
  simp only [HostState.clearedNeighbour, Bool.or_eq_true] at h
  cases ho : n.owned with
  | true => simp [protectedNeighbour, ho]
  | false =>
    have hadopt : adopt = true := hown.resolve_right (by simp [ho])
    simp [protectedNeighbour, ho, hadopt, h.resolve_left (by simp [ho])]

theorem HostState.neighbour_unique (state : HostState) {m n : NeighbourEntry} (hm : m ∈ state.neighbours)
    (hn : n ∈ state.neighbours) (h : m.key = n.key) : m = n :=
  List.inj_on_of_nodup_map state.neighbours_distinct hm hn h

variable {key : String × String}

/-- A neighbour that is found is the one with the key. -/
theorem presentNeighbour_some (h : state.presentNeighbour roles key = some n) :
    n ∈ state.neighbours ∧ state.clearedNeighbour roles n = true ∧ n.key = key := by
  obtain ⟨hmem, hcleared⟩ := mem_filter.mp (List.mem_of_find?_eq_some h)
  have hkey := List.find?_some h
  exact ⟨hmem, hcleared, of_decide_eq_true hkey⟩

/-- A cleared neighbour of a key is found. -/
theorem presentNeighbour_of_mem (hn : n ∈ state.neighbours)
    (hcleared : state.clearedNeighbour roles n = true) : state.presentNeighbour roles n.key = some n := by
  have hrelay : n ∈ state.relayNeighbours roles := mem_filter.mpr ⟨hn, hcleared⟩
  obtain ⟨m, hm⟩ := Option.isSome_iff_exists.mp
    (List.find?_isSome (p := fun m : NeighbourEntry => decide (m.key = n.key)).mpr ⟨n, hrelay, decide_eq_true rfl⟩)
  obtain ⟨hmem, -, hkey⟩ := presentNeighbour_some hm
  rw [← state.neighbour_unique hmem hn hkey]
  exact hkey ▸ hm

variable {mac : String}

theorem neighbourPart_sound : (neighbourPart present key mac).Sound := by
  cases present with
  | none => exact Part.sound_of_change (mem_singleton.mpr rfl) nofun
  | some =>
    simp only [neighbourPart]
    split_ifs
    · exact fun h => absurd rfl h
    · exact Part.sound_of_change (mem_singleton.mpr rfl) nofun
    · exact Part.sound_of_change (mem_singleton.mpr rfl) nofun

/-- A planned neighbour is set or kept; it is set where none is found. -/
theorem neighbourPart_emitted : (∀ c ∈ (neighbourPart present key mac).emitted, c = .neighReplace key.1 mac key.2) ∧
      (present = none → Command.neighReplace key.1 mac key.2 ∈ (neighbourPart present key mac).emitted) := by
  cases present with
  | none => simp [neighbourPart]
  | some =>
    refine ⟨?_, nofun⟩
    simp only [neighbourPart]
    split_ifs <;> simp

/-- With consent a neighbour that is planned and was found is owned or was adopted. -/
theorem owned_of_neighbourPart (h : Consent adopt (neighbourPart (some n) key mac).changes) : adopt = true ∨ n.owned = true := by
  refine h.imp_right fun hkeep => ?_
  by_contra hun
  have hun : (!n.owned) = true := by simpa using hun
  simp only [neighbourPart] at hkeep
  by_cases hmac : n.mac = mac.toLower
  · rw [if_pos hmac, if_neg (by simpa using hun)] at hkeep
    exact Action.noConfusion (hkeep _ (mem_singleton.mpr rfl) rfl)
  · rw [if_neg hmac] at hkeep
    exact Action.noConfusion (hkeep _ (mem_singleton.mpr rfl) hun)

variable {neighbours : List NeighbourEntry}

theorem removeNeighbours_sound : (removeNeighbours neighbours).Sound := by
  intro hne
  obtain ⟨c, hc⟩ := List.exists_mem_of_ne_nil _ hne
  obtain ⟨n, hn, -⟩ := mem_map.mp hc
  exact ⟨_, mem_map.mpr ⟨n, hn, rfl⟩, nofun⟩

theorem owned_of_removeNeighbours
    (h : Consent adopt (removeNeighbours neighbours).changes) (hn : n ∈ neighbours) : adopt = true ∨ n.owned = true := by
  refine h.imp_right fun hkeep => ?_
  by_contra hun
  exact Action.noConfusion (hkeep _ (mem_map.mpr ⟨n, hn, rfl⟩) (by simpa using hun))

/-- Removed relay neighbours are none of those that stay. -/
theorem removeNeighbours_safe (hsub : ∀ n ∈ neighbours, n ∈ state.relayNeighbours roles)
    (h : Consent adopt (removeNeighbours neighbours).changes) (hc : c ∈ (removeNeighbours neighbours).emitted) :
    NeighbourSafe state roles adopt c := by
  intro n hn hkey
  obtain ⟨m, hm, rfl⟩ := mem_map.mp hc
  obtain ⟨hmem, hcleared⟩ := mem_filter.mp (hsub m hm)
  have hsame : m.key = n.key := Option.some.inj hkey
  rw [← state.neighbour_unique hmem hn hsame]
  exact not_protected_of_clearedNeighbour hcleared (owned_of_removeNeighbours h hm)

variable (state roles) in
/-- No permanent neighbour that is unmarked and no relay neighbour has one of the keys. -/
def NeighboursClear (keys : List (String × String)) : Prop :=
  ∀ n ∈ state.neighbours, n.permanent = true → n.owned = false → state.isRelayNeighbour roles n = false →
    n.key ∉ keys

/-- A neighbour that stays, and would not with consent for all. -/
theorem protectedNeighbour_of_clear (hperm : n.permanent = true) (hown : n.owned = false)
    (hrelay : state.isRelayNeighbour roles n = false) : state.protectedNeighbour roles adopt n = true := by
  simp [protectedNeighbour, hperm, hown, hrelay]

/-- A planned neighbour is set safely where no other neighbour has its key. -/
theorem neighbourPart_safe (hconsent : Consent adopt (neighbourPart (state.presentNeighbour roles key) key mac).changes)
    (hclear : NeighboursClear state roles [key]) (hc : c ∈ (neighbourPart (state.presentNeighbour roles key) key mac).emitted) :
    NeighbourSafe state roles adopt c := by
  intro n hn hkey
  have hset := neighbourPart_emitted.1 c hc
  rw [hset] at hkey
  have hkey : key = n.key := Option.some.inj hkey
  cases hcleared : state.clearedNeighbour roles n with
  | true =>
    rw [hkey, presentNeighbour_of_mem hn hcleared] at hconsent
    exact not_protected_of_clearedNeighbour hcleared (owned_of_neighbourPart hconsent)
  | false =>
    simp only [HostState.clearedNeighbour, Bool.or_eq_false_iff] at hcleared
    cases hperm : n.permanent with
    | false => simp [protectedNeighbour, hperm]
    | true => exact absurd (mem_singleton.mpr hkey.symm) (hclear n hn hperm hcleared.1 hcleared.2)

/-- A neighbour that is no relay neighbour and has a planned key is overlooked and set. -/
theorem neighbourPart_sets (hn : n ∈ state.neighbours) (hown : n.owned = false) (hrelay : state.isRelayNeighbour roles n = false) :
    Command.neighReplace n.key.1 mac n.key.2 ∈ (neighbourPart (state.presentNeighbour roles n.key) n.key mac).emitted := by
  refine neighbourPart_emitted.2 ?_
  by_contra hsome
  obtain ⟨m, hm⟩ := Option.ne_none_iff_exists'.mp hsome
  obtain ⟨hmem, hcleared, hkey⟩ := presentNeighbour_some hm
  rw [state.neighbour_unique hmem hn hkey] at hcleared
  simp [HostState.clearedNeighbour, hown, hrelay] at hcleared

end SparkRing.Relay
