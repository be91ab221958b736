import SparkRing.RelayFrame

/-!
# The routes a script leaves alone

A script first sets and clears the routes of planned destinations and then sweeps the
relay routes of the others. Nothing at a planned destination stays, so the first part
harms none of the routes that do. The sweep keeps them when no such route stands
before an unmarked relay route whose deletion fits it as well.
-/

namespace SparkRing.Relay

open ListSweep
open Routes (Roles)
open RouteEntry (deletedBy owned)

/-- What a command does to the routes. -/
def Command.execRoutes (c : Command) (routes : List RouteEntry) : List RouteEntry :=
  match c with
  | .routeReplace destination netdev source =>
    replaceFirst (RouteEntry.replacedBy destination) (ownedRoute destination netdev source) routes
  | .routeDel destination netdev protocol metric =>
    routes.eraseP (RouteEntry.deletedBy destination netdev protocol metric)
  | _ => routes

/-- A command sets or deletes a route. -/
def Command.onRoutes (c : Command) : Bool := decide (c.slot = some .routeSet ∨ c.slot = some .routeDel)

def runRoutes (commands : List Command) (routes : List RouteEntry) : List RouteEntry :=
  commands.foldl (fun left c => c.execRoutes left) routes

theorem Host.exec_routes (host : Host) (c : Command) : (host.exec c).routes = c.execRoutes host.routes := by
  cases c <;> rfl

theorem runRoutes_append (second : List Command) :
    runRoutes (first ++ second) routes = runRoutes second (runRoutes first routes) := List.foldl_append ..

/-- Only the commands on routes change the routes of a run. -/
theorem Host.run_routes (host : Host) (commands : List Command) :
    (host.run commands).routes = runRoutes (commands.filter Command.onRoutes) host.routes := by
  induction commands generalizing host with
  | nil => rfl
  | cons c commands ih =>
    rw [Host.run_cons, ih, Host.exec_routes]
    by_cases hc : c.onRoutes = true
    · rw [List.filter_cons_of_pos hc]
      rfl
    · cases c <;> first | rfl | exact absurd rfl hc

/-- The request of a relay route to another route. -/
def RouteEntry.asks (r a : RouteEntry) : Bool := a.deletedBy r.destination r.dev r.protocol r.metric

/-- A planned destination the command sets or clears. -/
def Command.routeAt : Command → Option String
  | .routeReplace destination _ _ => some destination
  | .routeDel destination _ _ _ => some destination
  | _ => none

variable (state : HostState) (roles : Roles) (adopt : Bool) (planned : List String) {routes : List RouteEntry}

/-- A route to a destination without a plan. -/
def stale (r : RouteEntry) : Bool := decide (r.destination ∉ planned)

/-- A route the installer clears away from other destinations. -/
def HostState.cleared (r : RouteEntry) : Bool := r.owned || state.isRelayRoute roles r

/-- What a script may do to the routes of planned destinations and what stands there. -/
structure RouteWork (first : List Command) : Prop where
  /-- The first part works at planned destinations. -/
  first_planned : ∀ c ∈ first, ∀ d, c.routeAt = some d → d ∈ planned
  /-- No /32 route of a planned destination stays. -/
  planned_free : ∀ r ∈ state.routes, r.prefixlen = 32 → r.destination ∈ planned →
    state.protectedRoute roles adopt r = false
  /-- The routes cleared away are owned or were adopted. -/
  consent : ∀ r ∈ state.routes, state.cleared roles r = true → r.destination ∉ planned →
    adopt = true ∨ r.owned = true

/-- An unmarked route that is no relay route does not stand before an unmarked relay
route of another destination whose deletion fits it. -/
def RoutesClear : Prop :=
  adopt = true → ∀ before r after, state.routes = before ++ r :: after → r.owned = false →
    state.isRelayRoute roles r = true → r.destination ∉ planned →
    ∀ a ∈ before, state.protectedRoute roles adopt a = true → r.asks a = false

variable {state roles adopt planned} {first : List Command}

variable {r : RouteEntry}

theorem stale_iff : stale planned r = true ↔ r.destination ∉ planned := decide_eq_true_iff

theorem stale_of_mem (h : r.destination ∈ planned) : stale planned r = false :=
  decide_eq_false fun hno => hno h

/-- The marks of routes fit their requests. -/
theorem marks : Marks RouteEntry.asks (state.cleared roles) owned where
  owned_removed a ha := by simp [HostState.cleared, ha]
  owned_hits r a hr hhit := by
    have hhit := of_decide_eq_true hhit
    have hr : r.protocol = some routeProtocol := of_decide_eq_true hr
    exact decide_eq_true (hhit.2.2.2.1.elim (fun hno => by simp [hr] at hno) fun h => h.trans hr)
  self_hits r hr hun := by
    have hrelay : state.isRelayRoute roles r = true := by simpa [HostState.cleared, hun] using hr
    have h32 : r.prefixlen = 32 := (of_decide_eq_true (Bool.and_eq_true_iff.mp hrelay).1).1
    simp [RouteEntry.asks, deletedBy, h32]
  owned_self r a _ hhit := by
    have h32 : a.prefixlen = 32 := (of_decide_eq_true hhit).2.1
    simp [RouteEntry.asks, deletedBy, h32]

theorem runRoutes_removals (left : List RouteEntry) : runRoutes (routes.map routeRemoval) left = sweep RouteEntry.asks routes left := by
  rw [runRoutes, List.foldl_map]
  rfl

theorem protectedRoute_owned {destination netdev source : String} :
    state.protectedRoute roles adopt (ownedRoute destination netdev source) = false := by
  simp [HostState.protectedRoute, owned, ownedRoute]

/-- The routes so far hold what stays and what other destinations had. -/
structure KeptSoFar (state : HostState) (roles : Roles) (adopt : Bool) (planned : List String)
    (routes : List RouteEntry) : Prop where
  /-- The routes that stay. -/
  protected_eq : routes.filter (state.protectedRoute roles adopt) = state.routes.filter (state.protectedRoute roles adopt)
  /-- The routes of other destinations. -/
  stale_eq : routes.filter (stale planned) = state.routes.filter (stale planned)

/-- A /32 route at a planned destination is none of those kept. -/
theorem KeptSoFar.free (hw : RouteWork state roles adopt planned first)
    (h : KeptSoFar state roles adopt planned routes) {a : RouteEntry} (ha : a ∈ routes) (h32 : a.prefixlen = 32)
    (hd : a.destination ∈ planned) : state.protectedRoute roles adopt a = false ∧ stale planned a = false := by
  refine ⟨?_, stale_of_mem hd⟩
  by_contra hprot
  have hmem := List.mem_filter.mpr ⟨ha, by simpa using hprot⟩
  rw [h.protected_eq] at hmem
  exact hprot (hw.planned_free a (List.mem_filter.mp hmem).1 h32 hd)

/-- One command at a planned destination keeps them. -/
theorem KeptSoFar.step {c : Command} (hw : RouteWork state roles adopt planned first)
    (h : KeptSoFar state roles adopt planned routes) (hc : c ∈ first) : KeptSoFar state roles adopt planned (c.execRoutes routes) := by
  cases c with
  | routeReplace d x s =>
    have hd := hw.first_planned _ hc d rfl
    have hfit : ∀ a ∈ routes, RouteEntry.replacedBy d a = true →
        state.protectedRoute roles adopt a = false ∧ stale planned a = false := by
      intro a ha hfit
      obtain ⟨rfl, h32, -⟩ := of_decide_eq_true hfit
      exact h.free hw ha h32 hd
    refine ⟨Eq.trans ?_ h.protected_eq, Eq.trans ?_ h.stale_eq⟩
    · exact filter_replaceFirst protectedRoute_owned fun a ha hf => (hfit a ha hf).1
    · exact filter_replaceFirst (stale_of_mem hd) fun a ha hf => (hfit a ha hf).2
  | routeDel d x p m =>
    have hd := hw.first_planned _ hc d rfl
    have hfit : ∀ a, routes.find? (deletedBy d x p m) = some a →
        state.protectedRoute roles adopt a = false ∧ stale planned a = false := by
      intro a ha
      have hhit : deletedBy d x p m a = true := List.find?_some ha
      obtain ⟨rfl, h32, -⟩ := of_decide_eq_true hhit
      exact h.free hw (List.mem_of_find?_eq_some ha) h32 hd
    refine ⟨Eq.trans ?_ h.protected_eq, Eq.trans ?_ h.stale_eq⟩
    · exact filter_eraseP_of_find? fun a ha => (hfit a ha).1
    · exact filter_eraseP_of_find? fun a ha => (hfit a ha).2
  | _ => exact h

variable {commands : List Command}

section

variable (hw : RouteWork state roles adopt planned first)

include hw

/-- Work at planned destinations keeps the routes that stay and those of other destinations. -/
theorem KeptSoFar.run (h : KeptSoFar state roles adopt planned routes)
    (hc : ∀ c ∈ commands, c ∈ first) : KeptSoFar state roles adopt planned (runRoutes commands routes) := by
  induction commands generalizing routes with
  | nil => exact h
  | cons c commands ih =>
    obtain ⟨hc, hrest⟩ := List.forall_mem_cons.mp hc
    exact ih (h.step hw hc) hrest

/-- The first part of a script keeps them. -/
theorem RouteWork.first_keeps (hc : ∀ c ∈ commands, c ∈ first) : KeptSoFar state roles adopt planned (runRoutes commands state.routes) :=
  KeptSoFar.run hw ⟨rfl, rfl⟩ hc

/-- Among the routes of other destinations those that stay are the ones not cleared away. -/
theorem RouteWork.protected_iff {a : RouteEntry} (ha : a ∈ state.routes) (hst : a.destination ∉ planned) :
    state.protectedRoute roles adopt a = !state.cleared roles a := by
  cases hown : a.owned with
  | true => simp [HostState.protectedRoute, HostState.cleared, hown]
  | false =>
    cases hrelay : state.isRelayRoute roles a with
    | false => simp [HostState.protectedRoute, HostState.cleared, hown, hrelay]
    | true =>
      have hadopt := hw.consent a ha (by simp [HostState.cleared, hrelay]) hst
      rw [hown] at hadopt
      have hadopt : adopt = true := hadopt.elim id fun h => Bool.noConfusion h
      simp [HostState.protectedRoute, HostState.cleared, hown, hrelay, hadopt]

/-- The routes in the way of the sweep are those in the way among all routes. -/
theorem RouteWork.free_iff : Free RouteEntry.asks (state.cleared roles) owned (state.routes.filter (stale planned)) ↔
      RoutesClear state roles adopt planned := by
  constructor
  · intro hfree _ before r after hsplit hun hrelay hst a ha hprot
    by_contra hhit
    have hhit : r.asks a = true := by simpa using hhit
    have hdest : a.destination = r.destination := (of_decide_eq_true hhit).1
    have hsta : a.destination ∉ planned := hdest ▸ hst
    have hmem : a ∈ state.routes := hsplit ▸ List.mem_append_left _ ha
    have hkept : state.cleared roles a = false := by
      have := hw.protected_iff hmem hsta
      rw [hprot] at this
      simpa using this.symm
    refine absurd hhit (Bool.eq_false_iff.mp (hfree (before.filter (stale planned)) r (after.filter (stale planned)) ?_
      (by simp [HostState.cleared, hrelay]) hun a (List.mem_filter.mpr ⟨ha, stale_iff.mpr hsta⟩) hkept))
    rw [hsplit, List.filter_append, List.filter_cons_of_pos (stale_iff.mpr hst)]
  · intro hclear before r after hsplit hr hun a ha hkept
    obtain ⟨first', second', hroutes, hbefore, hsecond⟩ := List.filter_eq_append_iff.mp hsplit
    obtain ⟨middle, after', rfl, hmiddle, hst, -⟩ := List.filter_eq_cons_iff.mp hsecond
    have hrelay : state.isRelayRoute roles r = true := by simpa [HostState.cleared, hun] using hr
    have hrmem : r ∈ state.routes := by simp [hroutes]
    have hstr : r.destination ∉ planned := stale_iff.mp hst
    have hadopt : adopt = true := (hw.consent r hrmem hr hstr).elim id fun h => by simp [hun] at h
    rw [← hbefore] at ha
    obtain ⟨ha, hsta⟩ := List.mem_filter.mp ha
    have hamem : a ∈ state.routes := by simp [hroutes, ha]
    refine hclear hadopt (first' ++ middle) r after' (by simp [hroutes]) hun hrelay hstr a
      (List.mem_append_left _ ha) ?_
    rw [hw.protected_iff hamem (stale_iff.mp hsta), hkept]
    rfl

end

/-- The relay routes of other destinations. -/
def HostState.swept (state : HostState) (roles : Roles) (planned : List String) : List RouteEntry :=
  (state.relayRoutes roles).filter (stale planned)

theorem mem_swept (h : r ∈ state.swept roles planned) : r.destination ∉ planned :=
  stale_iff.mp (List.mem_filter.mp h).2

theorem swept_eq : state.swept roles planned = (state.routes.filter (stale planned)).filter (state.cleared roles) :=
  List.filter_comm ..

section

variable (hw : RouteWork state roles adopt planned first)

include hw

/-- A sweep after the first part keeps the routes that stay when it keeps those of other
destinations that are not cleared away. -/
theorem RouteWork.sweep_keeps_iff {requests : List RouteEntry}
    (hr : ∀ r ∈ requests, r.destination ∉ planned) :
    (sweep RouteEntry.asks requests (runRoutes first state.routes)).filter (state.protectedRoute roles adopt) =
        state.routes.filter (state.protectedRoute roles adopt) ↔
      (sweep RouteEntry.asks requests (state.routes.filter (stale planned))).filter (fun a => !state.cleared roles a) =
        (state.routes.filter (stale planned)).filter fun a => !state.cleared roles a := by
  obtain ⟨hprot, hstale⟩ := hw.first_keeps fun _ hc => hc
  have hclass : ∀ r ∈ requests, ∀ a, r.asks a = true → stale planned a = true := fun r hr' a hhit =>
    stale_iff.mpr fun hin => hr r hr' ((of_decide_eq_true hhit).1 ▸ hin)
  have hcongr : ∀ part : List RouteEntry, part.Sublist (state.routes.filter (stale planned)) →
      part.filter (state.protectedRoute roles adopt) = part.filter fun a => !state.cleared roles a := fun part hpart =>
    List.filter_congr fun a ha => by
      obtain ⟨ha, hst⟩ := List.mem_filter.mp (hpart.subset ha)
      exact hw.protected_iff ha (stale_iff.mp hst)
  rw [← hprot, filter_eq_iff_of_sublist (sweep_sublist ..) (filter_not_sweep _ _ hclass), filter_sweep _ _ hclass, hstale,
    hcongr _ (sweep_sublist ..), hcongr _ (.refl _)]

/-- The routes that stay are kept throughout, unless one is in the way of the sweep. -/
theorem RouteWork.keeps (hclear : RoutesClear state roles adopt planned)
    (hc : commands <+: first ++ (state.swept roles planned).map routeRemoval) :
    (runRoutes commands state.routes).filter (state.protectedRoute roles adopt) =
      state.routes.filter (state.protectedRoute roles adopt) := by
  obtain hin | ⟨rest, rfl⟩ := List.prefix_or_prefix_of_prefix hc (List.prefix_append first _)
  · exact (hw.first_keeps fun c h => hin.subset h).protected_eq
  rw [List.prefix_append_right_inj] at hc
  obtain ⟨requests, hreq, rfl⟩ := List.prefix_map_iff.mp hc
  rw [runRoutes_append, runRoutes_removals]
  refine (hw.sweep_keeps_iff fun r hr => ?_).mpr (sweep_keeps marks (hw.free_iff.mpr hclear) ?_)
  · exact mem_swept (hreq.subset hr)
  · rw [← swept_eq]
    exact hreq

/-- A whole script that keeps the routes that stay found none in the way of its sweep. -/
theorem RouteWork.clear_of_keeps (h : (runRoutes (first ++ (state.swept roles planned).map routeRemoval) state.routes).filter
        (state.protectedRoute roles adopt) = state.routes.filter (state.protectedRoute roles adopt)) :
    RoutesClear state roles adopt planned := by
  rw [runRoutes_append, runRoutes_removals, hw.sweep_keeps_iff fun r hr => mem_swept hr,
    swept_eq] at h
  exact hw.free_iff.mp (free_of_sweep_keeps marks h)

end

end SparkRing.Relay
