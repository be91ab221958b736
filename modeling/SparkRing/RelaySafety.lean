import SparkRing.RelayReconcile

/-!
# What an unblocked comparison leaves alone

The script of an unblocked comparison keeps the unmarked routes and permanent
neighbours (relay objects aside when they are adopted), the filters outside the
reserved preferences and the qdiscs the record does not list, except in two cases: a
permanent neighbour that is no relay neighbour has the address and device of a planned
one, and an unmarked route that is no relay route stands before an adopted relay route
whose deletion fits it as well.
-/

namespace SparkRing.Relay

open Routes (Roles)

variable {state : HostState} {roles : Roles} {adopt checkHostname : Bool} {diff : SparkDiff}

theorem ok_of_bind {ε : Type*} {α β : Type} {x : Except ε α} {f : α → Except ε β} {b : β} (h : (x >>= f) = .ok b) :
    ∃ a, x = .ok a ∧ f a = .ok b := by
  cases x with
  | error => cases h
  | ok a => exact ⟨a, rfl, h⟩

/-- A comparison that is closed has the changes of its part and its script. -/
theorem finish_ok {hostname : String} {blockers : List Blocker} {notes : List FilterEntry} {part : Part}
    (hsound : part.Sound) (h : finish roles hostname adopt blockers notes part = .ok diff) :
    diff.blockers = blockers ∧ diff.needsAdopt = adoptBlocker part.changes adopt ∧ diff.commands = scriptLines hostname part.emitted := by
  have hcommands : (if part.changes.any fun c => decide (c.action ≠ .keep) then scriptLines hostname part.emitted
      else []) = scriptLines hostname part.emitted := by
    split_ifs with hpending
    · rfl
    have hnone : part.emitted = [] := by
      by_contra hne
      obtain ⟨change, hc, hkeep⟩ := hsound hne
      exact hpending (List.any_eq_true.mpr ⟨change, hc, decide_eq_true hkeep⟩)
    rw [hnone]
    rfl
  simp only [finish, hcommands] at h
  split_ifs at h with hne
  · obtain ⟨-, -, h⟩ := ok_of_bind h
    cases h
    exact ⟨rfl, rfl, rfl⟩
  · cases h
    exact ⟨rfl, rfl, rfl⟩

/-- An unblocked comparison has no blockers and had consent. -/
theorem unblocked (h : diff.blocked = false) : diff.blockers = [] ∧ diff.needsAdopt = none := by
  simpa [SparkDiff.blocked] using h

/-- Without blockers the record names the group or nothing. -/
theorem group_of_commonBlockers {group : String} (h : commonBlockers state group checkHostname = [])
    {record : InstallRecord} (hrec : state.record = some record) : record.group = some group := by
  by_contra hg
  simp [commonBlockers, hrec, hg] at h

/-- The part of the record has one harmless command or none. -/
theorem recordPart_safe (unchanged : Prop) [Decidable unchanged] (change : Change) (c : Command)
    (ha : change.action ≠ .keep) (hc : Harmless state c) : (if unchanged then Part.nothing else ⟨[change], [c]⟩).Sound ∧
      ∀ d ∈ (if unchanged then Part.nothing else ⟨[change], [c]⟩).emitted, Harmless state d := by
  split_ifs
  · exact ⟨Part.sound_nothing, fun _ hd => absurd hd List.not_mem_nil⟩
  · exact ⟨Part.sound_of_change (List.mem_singleton.mpr rfl) ha, fun d hd => List.mem_singleton.mp hd ▸ hc⟩

/-- A comparison of one Spark. -/
inductive Request where
  | up (spark : SparkPlan) (plan : GroupPlan) (layoutName : String)
  /-- Remove a group's objects. -/
  | down (group : String)

namespace Request

/-- The group of the operation. -/
def group : Request → String
  | up _ plan _ => plan.group
  | down group => group

def destinations : Request → List String
  | up spark _ _ => spark.plannedRoutes.keys
  | down _ => []

/-- Addresses and devices of planned neighbours. -/
def neighbourKeys : Request → List (String × String)
  | up spark _ _ => spark.plannedNeighbours.keys
  | down _ => []

def compare (request : Request) (roles : Roles) (state : HostState) (marker : MarkerConfig)
    (adopt checkHostname : Bool) : Except FabricError SparkDiff :=
  match request with
  | up spark plan layoutName => compareUp roles state spark plan layoutName marker adopt checkHostname
  | down group => compareDown roles state group marker adopt checkHostname

end Request

/-- What a comparison that is not blocked consists of. -/
theorem reconciles_of_compare {request : Request} {marker : MarkerConfig}
    (h : request.compare roles state marker adopt checkHostname = .ok diff) (hb : diff.blocked = false) :
    commonBlockers state request.group checkHostname = [] ∧ ∃ hostname emitted first, diff.commands = scriptLines hostname emitted ∧
        Reconciles state roles adopt request.destinations request.neighbourKeys emitted first := by
  obtain ⟨hblockers, hadopt⟩ := unblocked hb
  cases request with
  | up spark plan layoutName =>
    rw [Request.compare, compareUp] at h
    split_ifs at h with hreach
    · cases h
      cases hblockers
    obtain ⟨-, -, h⟩ := ok_of_bind h
    obtain ⟨-, -, h⟩ := ok_of_bind h
    obtain ⟨-, -, h⟩ := ok_of_bind h
    obtain ⟨-, -, h⟩ := ok_of_bind h
    obtain ⟨hsound, hharmless⟩ := recordPart_safe
      (state.record = some (recordUp roles state spark plan layoutName marker)) ⟨.write, .record, false⟩
      (.recordWrite (recordUp roles state spark plan layoutName marker)) nofun ⟨trivial, trivial, rfl, rfl⟩
    obtain ⟨hbl, had, hcommands⟩ := finish_ok (partUp_sound hsound) h
    rw [hblockers] at hbl
    rw [hadopt] at had
    obtain ⟨⟨hcommon, hroutes⟩, -⟩ : (commonBlockers state plan.group checkHostname = [] ∧
        spark.plannedRoutes.keys.flatMap (routeBlockers state roles) = []) ∧ _ := by
      simpa only [List.append_eq_nil_iff] using hbl.symm
    refine ⟨hcommon, _, _, _, hcommands, reconciles_up hharmless (fun d hd => ?_) (consent_of_adoptBlocker had.symm)⟩
    exact foreign_of_routeBlockers (List.flatMap_eq_nil_iff.mp hroutes d hd)
  | down =>
    rw [Request.compare, compareDown] at h
    split at h
    · cases h
      cases hblockers
    obtain ⟨-, -, h⟩ := ok_of_bind h
    obtain ⟨-, -, h⟩ := ok_of_bind h
    obtain ⟨hsound, hharmless⟩ := recordPart_safe (state.record = none) ⟨.remove, .record, false⟩
      .recordRemove nofun ⟨trivial, trivial, rfl, rfl⟩
    obtain ⟨hbl, had, hcommands⟩ := finish_ok (partDown_sound hsound) h
    rw [hblockers] at hbl
    rw [hadopt] at had
    have hcommon := (List.append_eq_nil_iff.mp hbl.symm).1
    exact ⟨hcommon, _, _, _, hcommands, reconciles_down hharmless (consent_of_adoptBlocker had.symm)⟩

/-- A comparison that is not blocked is of a Spark whose record names no other group,
and its script leaves what is not the installer's alone at every line exactly when no
unmarked permanent neighbour that is no relay neighbour has a planned key, and no
unmarked route that is no relay route is in the way of the adopted ones. -/
theorem compare_leaves_others {request : Request} {marker : MarkerConfig} {diff : SparkDiff}
    (h : request.compare roles state marker adopt checkHostname = .ok diff) (hb : diff.blocked = false) :
    (∀ record, state.record = some record → record.group = some request.group) ∧
      ((∀ lines, lines <+: diff.commands → state.Untouched roles adopt (state.toHost.run lines)) ↔
        NeighboursClear state roles request.neighbourKeys ∧
          RoutesClear state roles adopt request.destinations) := by
  obtain ⟨hcommon, hostname, emitted, first, hcommands, hrec⟩ := reconciles_of_compare h hb
  refine ⟨fun record hr => group_of_commonBlockers hcommon hr, ?_⟩
  rw [hcommands]
  exact hrec.untouched_iff

/-- A Spark of a fabric in one subnet, with a permanent neighbour somebody else set. -/
def wideSubnet : HostState where
  routes := []
  neighbours := [⟨"10.0.2.5", "enp1s0f0np0", "02:00:00:00:00:07", ["PERMANENT"], none⟩]
  neighbours_distinct := by decide
  ingressQdisc := fun _ => none
  filters := fun _ => []
  markers := []
  record := none
  position := 0
  name := "spark0"
  reachable := true
  error := ""
  hostname := "spark0"
  links := fun netdev => if netdev = "enp1s0f0np0" then some ⟨[⟨0x0A000001#32, 16⟩]⟩ else none
  markerBinary := some ""
  recordProblem := none
  parseProblems := []

/-- A plan with one origin route, to the given address over the device of the neighbour. -/
def oneRoute (destination : String) : SparkPlan where
  position := 0
  name := "spark0"
  routes := [⟨destination, "enp1s0f0np0", "rocep1s0f0", "10.0.0.1", "02:00:00:00:00:02", tag 1⟩]
  filters := []

/-- Installing such a plan. -/
def installRoute (destination : String) : Request :=
  .up (oneRoute destination) ⟨"group0", [0, 1, 2], "same", "digest"⟩ "layout"

/-- An unblocked comparison whose full script meets a test. -/
def appliesTo (result : Except FabricError SparkDiff) (test : List Command → Bool) : Bool :=
  match result with
  | .error _ => false
  | .ok diff => !diff.blocked && test diff.commands

theorem exists_of_appliesTo {result : Except FabricError SparkDiff} (test : List Command → Bool) (h : appliesTo result test = true) :
    ∃ diff, result = .ok diff ∧ diff.blocked = false ∧ test diff.commands = true := by
  cases result with
  | error => cases h
  | ok diff =>
    simp only [appliesTo, Bool.and_eq_true, Bool.not_eq_true'] at h
    exact ⟨diff, rfl, h.1, h.2⟩

/-- The neighbour of another address stays while the plan is installed. -/
theorem neighbour_elsewhere_left : ∃ diff,
    (installRoute "10.1.2.5").compare .default wideSubnet ⟨"/var/tmp/ring8-mesh-marker"⟩ false true = .ok diff ∧
      ∀ lines, lines <+: diff.commands → wideSubnet.Untouched .default false (wideSubnet.toHost.run lines) := by
  obtain ⟨diff, hok, hb, -⟩ := exists_of_appliesTo (fun _ => true)
    (by decide +kernel : appliesTo ((installRoute "10.1.2.5").compare .default wideSubnet
      ⟨"/var/tmp/ring8-mesh-marker"⟩ false true) (fun _ => true) = true)
  refine ⟨diff, hok, (compare_leaves_others hok hb).2.mpr ⟨?_, fun hno => by cases hno⟩⟩
  have hclear : ∀ n ∈ wideSubnet.neighbours, n.key ∉ (installRoute "10.1.2.5").neighbourKeys := by decide +kernel
  exact fun n hn _ _ _ => hclear n hn

/-- Installing a plan without adopting anything replaces somebody else's permanent
neighbour when its address lies in the subnet of its device. -/
theorem neighbour_on_link_replaced : ¬∀ (roles : Roles) (state : HostState) (request : Request) (marker : MarkerConfig)
    (adopt checkHostname : Bool) (diff : SparkDiff),
    request.compare roles state marker adopt checkHostname = .ok diff → diff.blocked = false →
      state.Untouched roles adopt (state.toHost.run diff.commands) := by
  intro hall
  obtain ⟨diff, hok, hb, htest⟩ := exists_of_appliesTo _
    (by decide +kernel : appliesTo ((installRoute "10.0.2.5").compare .default wideSubnet
      ⟨"/var/tmp/ring8-mesh-marker"⟩ false true) (fun commands =>
        decide ((wideSubnet.toHost.run commands).neighbours.filter (wideSubnet.protectedNeighbour .default false) ≠
          wideSubnet.neighbours.filter (wideSubnet.protectedNeighbour .default false))) = true)
  exact of_decide_eq_true htest (hall _ _ _ _ _ _ _ hok hb).neighbours

end SparkRing.Relay
