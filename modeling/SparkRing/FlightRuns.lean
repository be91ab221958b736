import SparkRing.FlightResults

/-!
# Runs of the shared reads

Every section of every call keeps the invariant, provided the resolves of one request
do not overlap, a request is not finished while it resolves, and readers that fail
raise an `Exception`. So a base is read once for its cohort, every member gets what the
only reader returned, and no follower waits in vain.
-/

namespace SparkRing.PageBase

open OrderedDict TransitionSystem
open Option (map_eq_some_iff map_some some.injEq)

variable {β : Type} {bounds : FlightBounds} {c c' : Coordinator β} {s s' : State β} {thread : ℕ} {request : String}
  {key : PageBaseReadFlightKey} {f : ℕ} {flight : Flight β} {call : Call β} {one : Resolved β} {readable : Readable β}
  {value : BaseValue β} {message : String} {stays : String → Prop}

/-- A step that the callers may take. -/
def Proper (s : State β) : Act β → Prop
  | .resolve _ request _ _ => ¬s.resolving request
  | .finish request => ¬s.resolving request
  | .readerEnds thread .interrupts => ∀ request key f, s.calls.get? thread ≠ some (.reading request key f)
  | _ => True

/-- What holds between two steps. -/
structure Inv (bounds : FlightBounds) (s : State β) : Prop where
  /-- The coordinator is in order. -/
  registry : Registry bounds s.coordinator
  /-- Calls keep their flights. -/
  running : Running s.coordinator s.calls
  /-- Followers sleep with reason. -/
  sleeping : Sleeping s.coordinator s.calls
  /-- Bases are what was read. -/
  results : Results s.coordinator s.calls s.reads
  /-- Calls returned the bases of their flights. -/
  right : ∀ one ∈ s.resolved, Right s.coordinator s.reads one

theorem running_init : Running ({} : Coordinator β) Dict.empty where
  placed := fun _ _ _ _ _ h => nomatch h
  leading := fun _ _ _ _ _ _ h => nomatch h
  oneLeader := fun _ _ _ _ _ _ _ _ _ h => nomatch h
  oneCall := fun _ _ _ _ _ _ _ _ _ h => nomatch h
  led := fun _ _ h => nomatch h.1

theorem results_init : Results ({} : Coordinator β) Dict.empty [] where
  once := List.nodup_nil
  known := fun _ _ h => nomatch h
  unread := fun _ _ _ h => nomatch h
  reading := fun _ _ _ _ _ h => nomatch h
  read := fun _ _ _ _ _ h => nomatch h
  result := fun _ _ _ h => nomatch h
  ready := fun _ _ h => nomatch h.1
  published := fun _ _ _ _ h => nomatch h.1

theorem inv_init : Inv bounds ({} : State β) where
  registry := registry_init
  running := running_init
  sleeping := fun _ _ _ _ h => nomatch h
  results := results_init
  right := fun _ h => nomatch h

theorem not_resolving (h : ¬s.resolving request) : ∀ t call key f, s.calls.get? t = some call → call.place ≠ some (request, key, f) := by
  intro t call key f hcall hplace
  refine h ⟨call, Dict.mem_values_iff.mpr ⟨t, hcall⟩, ?_⟩
  rw [Call.member_eq, hplace, map_some]

/-- A section that keeps the flights of the calls. -/
theorem Inv.keeps (h : Inv bounds s) (hregistry : Registry bounds c') (hk : Keeps s.coordinator c' stays)
    (hu : Uncancelled s.coordinator c')
    (hstays : ∀ t call r key f, s.calls.get? t = some call → call.place = some (r, key, f) → stays r) :
    Inv bounds { s with coordinator := c' } where
  registry := hregistry
  running := h.running.keeps hk hstays
  sleeping := h.sleeping.keeps hk hu
  results := h.results.keeps hk
  right := fun one hone => (h.right one hone).keeps hk

/-- A request without a running call is finished. -/
theorem Inv.finish (h : Inv bounds s) (hfree : ∀ t call key f, s.calls.get? t = some call → call.place ≠ some (request, key, f)) :
    Inv bounds { s with coordinator := s.coordinator.finishLocked request } := by
  have hf := h.registry.finishes request
  refine h.keeps (h.registry.of_finishes hf) (.of_finishes hf) (.of_finishes hf) fun t call r key f hcall hplace => ?_
  rintro rfl
  exact hfree t call key f hcall hplace

theorem Inv.registerCohort (h : Inv bounds s) (key : PageBaseReadFlightKey) (requestIds : List String) :
    Inv bounds { s with coordinator := (s.coordinator.registerCohort bounds key requestIds).1 } := by
  have hj := h.registry.joins key requestIds
  exact h.keeps (h.registry.of_joins hj) (.of_joins h.registry hj) (.of_joins h.registry hj) fun _ _ _ _ _ _ _ => trivial

/-- A call ends, and nobody else is of its request. -/
theorem Inv.leaves (hregistry : Registry bounds s.coordinator) (hrunning : Running s.coordinator (s.calls.erase thread))
    (hsleeping : Sleeping s.coordinator s.calls) (hresults : Results s.coordinator (s.calls.erase thread) s.reads)
    (hrights : ∀ one ∈ s.resolved, Right s.coordinator s.reads one)
    (hfree : ∀ t call key f, (s.calls.erase thread).get? t = some call → call.place ≠ some (one.request, key, f))
    (hright : Right s.coordinator s.reads one) : Inv bounds (s.leaves thread one) := by
  have hended : Inv bounds { s with calls := s.calls.erase thread, resolved := one :: s.resolved } := by
    refine ⟨hregistry, hrunning, hsleeping.erase, hresults, fun other hother => ?_⟩
    rcases List.mem_cons.mp hother with rfl | hother
    · exact hright
    · exact hrights other hother
  exact hended.finish hfree

/-- A call that never returned a base. -/
theorem right_of_not_returned (hused : one.outcome ≠ .releasedBeforeUse) (hnot : ∀ value, one.outcome ≠ .returned value) :
    Right s.coordinator s.reads one := ⟨hused, fun value hvalue => absurd hvalue (hnot value)⟩

/-- A new call that ends at once. -/
theorem Inv.refused (h : Inv bounds s) (hnew : s.calls.get? thread = none)
    (hfree : ∀ t call key f, s.calls.get? t = some call → call.place ≠ some (one.request, key, f))
    (hused : one.outcome ≠ .releasedBeforeUse) (hnot : ∀ value, one.outcome ≠ .returned value) : Inv bounds (s.leaves thread one) := by
  refine .leaves h.registry (h.running.erase fun call r f flight hcall => ?_) h.sleeping
    (h.results.erase fun r key f readable hcall => ?_) h.right ?_ (right_of_not_returned hused hnot)
  · rw [hnew] at hcall
    cases hcall
  · rw [hnew] at hcall
    cases hcall
  · exact fun t call key f hcall => hfree t call key f (Dict.get?_erase_eq_some.mp hcall).2

theorem Registry.membership (h : Registry bounds c) (hmember : c.membership request key = some (f, flight)) :
    c.Lives f flight ∧ flight.key = key ∧ request ∈ flight.members := by
  unfold Coordinator.membership at hmember
  split at hmember
  next hregistered =>
    obtain ⟨found, other, hlives, rfl, hin⟩ := (h.registered request key).mp hregistered
    rw [hlives.1] at hmember
    dsimp only at hmember
    rw [hlives.2] at hmember
    dsimp only at hmember
    rw [if_pos hin] at hmember
    cases hmember
    exact ⟨hlives, rfl, hin⟩
  next => cases hmember

/-- The first section of `resolve` keeps the invariant. -/
theorem Inv.resolve (h : Inv bounds s) (hnew : s.calls.get? thread = none) (hproper : ¬s.resolving request) (key : PageBaseReadFlightKey)
    (allowIndependent : Bool) : Inv bounds (s.resolve thread request key allowIndependent) := by
  have hfree := not_resolving hproper
  have hnothing : ∀ call request key f readable, s.calls.get? thread = some call → call ≠ .read request key f readable := by
    intro call request key f readable hcall
    rw [hnew] at hcall
    cases hcall
  unfold State.resolve
  split
  · exact h.refused hnew hfree nofun fun _ h => nomatch h
  split
  next hnone =>
    split
    · have hfinished := h.finish hfree
      refine ⟨hfinished.registry, hfinished.running.independent hnew, hfinished.sleeping.set (fun _ _ _ h => nomatch h), ?_, hfinished.right⟩
      exact hfinished.results.set (fun r key f readable hcall => hnothing _ r key f readable hcall rfl) (fun _ _ _ h => nomatch h) fun _ _ _ _ h => nomatch h
    · exact h.refused hnew hfree nofun fun _ h => nomatch h
  next f flight hmember =>
    obtain ⟨hlives, rfl, hin⟩ := h.registry.membership hmember
    split
    · exact h.refused hnew hfree nofun fun _ h => nomatch h
    split
    next hstate =>
      have hresult : flight.result = none := by
        refine Option.eq_none_iff_forall_ne_some.mpr fun value hvalue => ?_
        have hready := (h.results.result f flight value hlives.2 hvalue).1
        rw [hstate] at hready
        cases hready
      have hunread : ∀ readable, (f, readable) ∉ s.reads := fun readable => h.results.unread f flight readable hlives.2 hstate
      constructor
      case registry =>
        refine h.registry.put hlives.2 rfl rfl rfl (fun hretained => absurd hresult hretained) nofun
      case running => exact h.running.starts h.registry hnew hlives hin hstate rfl rfl rfl hfree
      case sleeping => exact (h.sleeping.put hlives.2 (hstate ▸ nofun)).set fun _ _ _ h => nomatch h
      case results =>
        have hput : Results (s.coordinator.put f { flight with state := .reading, leaderRequestId := some request }) s.calls s.reads := by
          refine h.results.put hlives.2 rfl nofun (fun value hvalue => ?_) nofun fun readable value hread => ?_
          · rw [hresult] at hvalue
            cases hvalue
          · exact absurd hread (hunread readable)
        refine hput.set (fun r key f readable hcall => hnothing _ r key f readable hcall rfl) (fun r key g hsame => ?_)
          fun _ _ _ _ h => nomatch h
        cases hsame
        exact hunread
      case right => exact fun one hone => (h.right one hone).put hlives.2 rfl
    next hstate =>
      refine ⟨h.registry, h.running.follows hnew hlives hin hstate hfree, h.sleeping.set (fun _ _ _ h => nomatch h), ?_, h.right⟩
      exact h.results.set (fun r key f readable hcall => hnothing _ r key f readable hcall rfl) (fun _ _ _ h => nomatch h) fun _ _ _ _ h => nomatch h

/-- A reader that ends keeps the invariant. -/
theorem Inv.readerEnds (h : Inv bounds s) (hproper : Proper s (.readerEnds thread readable))
    (hstep : s.readerEnds thread readable = some s') : Inv bounds s' := by
  unfold State.readerEnds at hstep
  split at hstep
  next hcall =>
    cases hstep
    refine ⟨h.registry, h.running.erase fun call r f flight hfound hplace => ?_, h.sleeping.erase,
      h.results.erase fun r key f readable hfound => ?_, h.right⟩
    · rw [hcall] at hfound
      cases hfound
      cases hplace
    · rw [hcall] at hfound
      cases hfound
  next request key f hcall =>
    have hread : ∀ readable, Inv bounds ({ s with reads := (f, readable) :: s.reads }.goesOn thread (.read request key f readable)) :=
      fun readable => ⟨h.registry, h.running.goesOn hcall rfl rfl, h.sleeping.set (fun _ _ _ h => nomatch h),
        h.results.readerEnds h.registry h.running hcall, fun one hone => (h.right one hone).cons _⟩
    cases readable with
    | interrupts => exact absurd hcall (hproper request key f)
    | bytes | result | other | raises =>
      cases hstep
      exact hread _
  next => cases hstep

theorem Running.free {calls : Dict ℕ (Call β)} (h : Running c calls) (hcall : calls.get? thread = some call)
    (hplace : call.place = some (request, key, f)) :
    ∀ t call' key' f', (calls.erase thread).get? t = some call' → call'.place ≠ some (request, key', f') := by
  intro t call' key' f' hcall' hplace'
  obtain ⟨hne, hold⟩ := Dict.get?_erase_eq_some.mp hcall'
  exact hne (h.oneCall t thread call' call request key' key f' f hold hplace' hcall hplace)

/-- A call that does not publish leaves. -/
theorem Inv.abandons (h : Inv bounds s) (hcall : s.calls.get? thread = some call) (hplace : call.place = some (one.request, key, f))
    (hleads : call.leads = true → ∀ flight, ¬s.coordinator.Lives f flight)
    (hright : Right s.coordinator s.reads one) : Inv bounds (s.leaves thread one) := by
  refine .leaves h.registry (h.running.erase fun found r g flight hfound hfoundPlace hfoundLeads hlives => ?_) h.sleeping
    (h.results.erase fun r key g readable hfound flight value hlives => ?_) h.right (h.running.free hcall hplace) hright
  · rw [hcall, some.injEq] at hfound
    subst hfound
    rw [hplace, some.injEq] at hfoundPlace
    cases hfoundPlace
    exact absurd hlives (hleads hfoundLeads flight)
  rw [hcall, some.injEq] at hfound
  subst hfound
  cases hplace
  exact absurd hlives (hleads rfl flight)

/-- What a leader found is published, and the leader leaves. -/
theorem Inv.publishes {changed : Flight β} (h : Inv bounds s) (hcall : s.calls.get? thread = some (.read one.request flight.key f readable))
    (hlives : s.coordinator.Lives f flight) (hkey : changed.key = flight.key) (hmembers : changed.members = flight.members)
    (hcount : changed.participantCount = flight.participantCount) (hstate : changed.state = .ready ∨ changed.state = .error)
    (hresult : ∀ value, changed.result = some value → changed.state = .ready ∧ readable.accept flight.key.evidence.baseEncodedBytes = .ok value)
    (hready : changed.state = .ready → changed.result ≠ none)
    (haccept : ∀ value, readable.accept flight.key.evidence.baseEncodedBytes = .ok value → changed.state = .ready)
    (hright : Right (s.coordinator.put f changed) s.reads one) : Inv bounds ((s.publish flight.key f changed).leaves thread one) := by
  have hread := h.results.read thread one.request flight.key f readable hcall
  have hwoken : (notifyAll s.calls).get? thread = some (.read one.request flight.key f readable) := by
    rw [get?_notifyAll, hcall]
    rfl
  have hresolved : changed.state ≠ .registered ∧ changed.state ≠ .reading ∧ changed.state ≠ .closed := by
    rcases hstate with hstate | hstate
    · rw [hstate]
      exact ⟨nofun, nofun, nofun⟩
    · rw [hstate]
      exact ⟨nofun, nofun, nofun⟩
  have hput : Results (s.coordinator.put f changed) (notifyAll s.calls) s.reads := by
    refine h.results.notifyAll.put hlives.2 hkey hresolved.1 (fun value hvalue => ?_) hready fun again value hagain hok => ?_
    · obtain ⟨hthen, hok⟩ := hresult value hvalue
      exact ⟨hthen, readable, hread, hok⟩
    · exact haccept value (h.results.unique hagain hread ▸ hok)
  rw [State.publish, if_pos hlives.1]
  refine .leaves (h.registry.put hlives.2 hkey hmembers hcount (fun _ => hlives) fun hclosed => absurd hclosed hresolved.2.2)
    (h.running.notifyAll.publishes hwoken rfl rfl hlives hkey hmembers hresolved.2.1 hresolved.1) (Sleeping.notifyAll _ _)
    (hput.erase fun r key g again hfound found value hfoundLives hsame hok => ?_) (fun other hother => (h.right other hother).put hlives.2 hkey)
    (h.running.notifyAll.free hwoken rfl) hright
  have hcalls := hwoken.symm.trans hfound
  cases hcalls
  rcases (lives_put hlives.2 hkey).mp hfoundLives with ⟨-, rfl, -⟩ | ⟨hne, -⟩
  · exact haccept value hok
  · exact absurd rfl hne

/-- A cancelled call returned nothing. -/
theorem right_cancelled {reads : List (ℕ × Readable β)} {place : Option ℕ} {cancelled : Prop} [Decidable cancelled] {outcome : Outcome β}
    (h : ¬cancelled → Right c reads ⟨request, key, place, outcome⟩) :
    Right c reads ⟨request, key, place, if cancelled then .cancelled message else outcome⟩ := by
  split_ifs with hcancelled
  · exact ⟨nofun, fun _ h => nomatch h⟩
  · exact h hcancelled

theorem publish_dead (h : s.coordinator.flights.get? key ≠ some f) : s.publish key f flight = s := if_neg h

/-- The last section of a leader keeps the invariant. -/
theorem Inv.lead (h : Inv bounds s) (hcall : s.calls.get? thread = some (.read request key f readable))
    (hobject : s.coordinator.objects.get? f = some flight) : Inv bounds (s.lead thread request key f flight readable) := by
  obtain ⟨found, hfound, rfl, -, hopen⟩ := h.running.placed thread _ request key f hcall rfl
  rw [hobject, some.injEq] at hfound
  subst hfound
  by_cases hclosed : s.coordinator.closed = true
  · -- nothing is published
    have hgone : s.coordinator.flights.get? flight.key ≠ some f := by
      intro hlisted
      have hmem := Dict.mem_keys_iff.mpr ⟨f, hlisted⟩
      rw [h.registry.closed hclosed] at hmem
      cases hmem
    have hdead : ∀ found, ¬s.coordinator.Lives f found := by
      intro found hlives
      have hsame := hlives.2
      rw [hobject, some.injEq] at hsame
      exact hgone (hsame ▸ hlives.1)
    unfold State.lead
    dsimp only
    split
    · rw [publish_dead hgone]
      exact h.abandons hcall rfl (fun _ => hdead) (right_cancelled fun hnot => absurd (.inr hclosed) hnot)
    · rw [publish_dead hgone]
      exact h.abandons hcall rfl (fun _ => hdead) (right_cancelled fun hnot => absurd (.inr hclosed) hnot)
  · obtain ⟨hlives, -⟩ := hopen (Bool.not_eq_true _ ▸ hclosed)
    have hreading := h.running.leading thread _ request flight.key f flight hcall rfl rfl hlives
    have hread := h.results.read thread request flight.key f readable hcall
    unfold State.lead
    split
    next message haccept =>
      refine h.publishes hcall hlives rfl rfl rfl (.inr rfl) (fun value hvalue => ?_) nofun (fun value hok => ?_)
        (right_cancelled fun _ => ?_)
      · have hready := (h.results.result f flight value hobject hvalue).1
        rw [hreading] at hready
        cases hready
      · rw [haccept] at hok
        cases hok
      · exact ⟨nofun, fun _ h => nomatch h⟩
    next value haccept =>
      refine h.publishes hcall hlives rfl rfl rfl (.inl rfl) (fun found hvalue => ?_) nofun (fun _ _ => rfl) (right_cancelled fun _ => ?_)
      · cases hvalue
        exact ⟨rfl, haccept⟩
      rw [if_pos hlives.1]
      refine ⟨nofun, fun found hvalue => ?_⟩
      cases hvalue
      exact ⟨f, _, readable, rfl, Dict.get?_set_self, rfl, hread, haccept⟩

/-- A follower that looks at its flight keeps the invariant. -/
theorem Inv.follow {asleep : Bool} (h : Inv bounds s) (hcall : s.calls.get? thread = some (.following request key f asleep))
    (hobject : s.coordinator.objects.get? f = some flight) : Inv bounds (s.follow thread request key f flight) := by
  obtain ⟨found, hfound, rfl, hresolved, hopen⟩ := h.running.placed thread _ request key f hcall rfl
  rw [hobject, some.injEq] at hfound
  subst hfound
  unfold State.follow
  split
  · exact h.abandons hcall rfl nofun ⟨nofun, fun _ h => nomatch h⟩
  next hgoing =>
    rw [not_or, Bool.not_eq_true] at hgoing
    obtain ⟨hlives, -⟩ := hopen hgoing.2
    split
    · exact h.abandons hcall rfl nofun ⟨nofun, fun _ h => nomatch h⟩
    next hready =>
      obtain ⟨value, hvalue⟩ := Option.ne_none_iff_exists'.mp (h.results.ready f flight hlives hready)
      obtain ⟨-, readable, hread, haccept⟩ := h.results.result f flight value hobject hvalue
      rw [hvalue]
      refine h.abandons hcall rfl nofun ⟨nofun, fun found hfound => ?_⟩
      cases hfound
      exact ⟨f, flight, readable, rfl, hobject, rfl, hread, haccept⟩
    next herror hready =>
      have hreading : flight.state = .reading := by
        have hclosed := h.registry.opened f flight hlives
        cases hstate : flight.state with
        | reading => rfl
        | registered => exact absurd hstate hresolved
        | ready => exact absurd hstate hready
        | error => exact absurd hstate herror
        | closed => exact absurd hstate hclosed
      refine ⟨h.registry, h.running.goesOn hcall rfl rfl, h.sleeping.falls hgoing.2 hobject hreading hgoing.1, ?_, h.right⟩
      refine h.results.set (fun r key g readable hfound => ?_) (fun _ _ _ h => nomatch h) fun _ _ _ _ h => nomatch h
      rw [hcall] at hfound
      cases hfound

/-- A call's next section keeps the invariant. -/
theorem Inv.proceed (h : Inv bounds s) (hstep : s.proceed thread = some s') : Inv bounds s' := by
  unfold State.proceed at hstep
  split at hstep
  next hcall =>
    obtain ⟨flight, hobject, rfl⟩ := map_eq_some_iff.mp hstep
    exact h.lead hcall hobject
  next hcall =>
    obtain ⟨flight, hobject, rfl⟩ := map_eq_some_iff.mp hstep
    exact h.follow hcall hobject
  next => cases hstep

/-- Cancelling a member keeps the invariant. -/
theorem Inv.cancel (h : Inv bounds s) (request : String) : Inv bounds (s.cancel request).1 := by
  unfold State.cancel
  cases hrequest : s.coordinator.requests.get? request with
  | none => exact h
  | some key =>
    obtain ⟨f, flight, hlives, rfl, -⟩ := (h.registry.registered request key).mp hrequest
    simp only [hlives.1, hlives.2]
    have hk : Keeps s.coordinator (s.coordinator.put f { flight with cancelled := insert request flight.cancelled }) fun _ => True :=
      .of_put hlives rfl rfl rfl rfl
    exact ⟨h.registry.put hlives.2 rfl rfl rfl (fun _ => hlives) id, (h.running.keeps hk fun _ _ _ _ _ _ _ => trivial).notifyAll,
      Sleeping.notifyAll _ _, (h.results.keeps hk).notifyAll, fun one hone => (h.right one hone).keeps hk⟩

theorem requests_of_finishes (hf : Finishes c request c') (other : String) :
    c'.requests.get? other = if other = request then none else c.requests.get? other := by
  cases hf with
  | absent hnone =>
    split
    case isTrue h => rw [h, hnone]
    case isFalse => rfl
  | leaves | releases => exact Dict.get?_erase

theorem Keeps.trans {c'' : Coordinator β} (h : Keeps c c' stays) (h' : Keeps c' c'' stays) : Keeps c c'' stays := by
  constructor
  case closed => exact h'.closed.trans h.closed
  case nextId => exact h.nextId.trans h'.nextId
  case object =>
    intro f flight hobject
    obtain ⟨flight', hobject', hkey', hstate'⟩ := h.object f flight hobject
    obtain ⟨flight'', hobject'', hkey'', hstate''⟩ := h'.object f flight' hobject'
    exact ⟨flight'', hobject'', hkey''.trans hkey', hstate''.trans hstate'⟩
  case made =>
    intro f flight'' hobject''
    rcases h'.made f flight'' hobject'' with ⟨hnew, hnone⟩ | ⟨flight', hobject', hresult'⟩
    · exact .inl ⟨h.nextId.trans hnew, hnone⟩
    rcases h.made f flight' hobject' with ⟨hnew, hnone⟩ | ⟨flight, hobject, hresult⟩
    · refine .inl ⟨hnew, Option.eq_none_iff_forall_ne_some.mpr fun value hvalue => ?_⟩
      rw [hresult' value hvalue] at hnone
      cases hnone
    · exact .inr ⟨flight, hobject, fun value hvalue => hresult value (hresult' value hvalue)⟩
  case lives =>
    intro f flight r hlives hin hr
    obtain ⟨flight', hlives', hin'⟩ := h.lives f flight r hlives hin hr
    exact h'.lives f flight' r hlives' hin' hr
  case lived =>
    intro f flight'' hlives''
    rcases h'.lived f flight'' hlives'' with hregistered | ⟨flight', hlives', hkey', hstate', hresult'⟩
    · exact .inl hregistered
    rcases h.lived f flight' hlives' with hregistered | ⟨flight, hlives, hkey, hstate, hresult⟩
    · exact .inl (hstate'.trans hregistered)
    · exact .inr ⟨flight, hlives, hkey'.trans hkey, hstate'.trans hstate, hresult'.trans hresult⟩

theorem Membership.finishes_all (h : Membership c) (requests : List String) :
    Membership (requests.foldl Coordinator.finishLocked c) ∧
      Keeps c (requests.foldl Coordinator.finishLocked c) (fun _ => False) ∧
      ∀ other, (requests.foldl Coordinator.finishLocked c).requests.get? other =
        if other ∈ requests then none else c.requests.get? other := by
  induction requests generalizing c with
  | nil =>
    refine ⟨h, ?_, fun other => by simp⟩
    exact ⟨rfl, le_rfl, fun f flight hobject => ⟨flight, hobject, rfl, rfl⟩, fun f flight hobject => .inr ⟨flight, hobject, fun _ => id⟩,
      fun _ _ _ _ _ hno => hno.elim, fun f flight hlives => .inr ⟨flight, hlives, rfl, rfl, rfl⟩⟩
  | cons request requests ih =>
    have hf := h.finishes request
    obtain ⟨hmembership, hkeeps, hrequests⟩ := ih (h.of_finishes hf)
    have hfirst := Keeps.of_finishes hf
    refine ⟨hmembership, .trans ⟨hfirst.closed, hfirst.nextId, hfirst.object, hfirst.made, fun _ _ _ _ _ hno => hno.elim, hfirst.lived⟩ hkeeps,
      fun other => ?_⟩
    rw [List.foldl_cons, hrequests, requests_of_finishes hf]
    by_cases hother : other = request
    · simp [hother]
    · simp [hother]

/-- A flight when the coordinator closes. -/
def Coordinator.shutFlight (c : Coordinator β) (f : ℕ) (flight : Flight β) : Flight β :=
  if c.flights.get? flight.key = some f then
    { flight with
      cancelled := flight.cancelled ∪ flight.members
      state := if flight.state = .error then .error else .closed }
  else flight

theorem shutFlight_same : (c.shutFlight f flight).key = flight.key ∧ (c.shutFlight f flight).members = flight.members ∧
    (c.shutFlight f flight).result = flight.result := by
  unfold Coordinator.shutFlight
  split <;> exact ⟨rfl, rfl, rfl⟩

theorem shutFlight_registered (h : (c.shutFlight f flight).state = .registered) : flight.state = .registered := by
  unfold Coordinator.shutFlight at h
  split at h
  · split at h
    · cases h
    · cases h
  · exact h

theorem get?_shut : c.shut.objects.get? f = (c.objects.get? f).map (c.shutFlight f) := Dict.get?_adjust

theorem lives_shut : c.shut.Lives f flight ↔ ∃ before, c.Lives f before ∧ flight = c.shutFlight f before := by
  unfold Coordinator.Lives
  rw [get?_shut, show c.shut.flights = c.flights from rfl]
  constructor
  · rintro ⟨hlisted, hobject⟩
    obtain ⟨before, hbefore, rfl⟩ := map_eq_some_iff.mp hobject
    rw [shutFlight_same.1] at hlisted
    exact ⟨before, ⟨hlisted, hbefore⟩, rfl⟩
  rintro ⟨before, ⟨hlisted, hobject⟩, rfl⟩
  rw [shutFlight_same.1, hobject, map_some]
  exact ⟨hlisted, rfl⟩

theorem Membership.shut (h : Membership c) : Membership c.shut := by
  constructor
  case listed =>
    intro key f hlisted
    obtain ⟨flight, hlives, rfl⟩ := h.lives hlisted
    have hshut : c.shut.Lives f (c.shutFlight f flight) := lives_shut.mpr ⟨flight, hlives, rfl⟩
    exact ⟨_, hshut.2, shutFlight_same.1⟩
  case registered =>
    intro request key
    rw [show c.shut.requests = c.requests from rfl, h.registered]
    constructor
    · rintro ⟨f, flight, hlives, rfl, hin⟩
      exact ⟨f, _, lives_shut.mpr ⟨flight, hlives, rfl⟩, shutFlight_same.1, shutFlight_same.2.1.symm ▸ hin⟩
    rintro ⟨f, flight, hlives, rfl, hin⟩
    obtain ⟨before, hbefore, rfl⟩ := lives_shut.mp hlives
    exact ⟨f, before, hbefore, shutFlight_same.1.symm, shutFlight_same.2.1 ▸ hin⟩
  case inhabited =>
    intro f flight hlives
    obtain ⟨before, hbefore, rfl⟩ := lives_shut.mp hlives
    rw [shutFlight_same.2.1]
    exact h.inhabited f before hbefore
  case retained =>
    intro f flight hobject hresult
    rw [get?_shut] at hobject
    obtain ⟨before, hbefore, rfl⟩ := map_eq_some_iff.mp hobject
    rw [shutFlight_same.2.2] at hresult
    exact lives_shut.mpr ⟨before, h.retained f before hbefore hresult, rfl⟩
  case numbered =>
    intro f flight hobject
    rw [get?_shut] at hobject
    obtain ⟨before, hbefore, rfl⟩ := map_eq_some_iff.mp hobject
    exact h.numbered f before hbefore

/-- Closing keeps the invariant. -/
theorem Inv.close (h : Inv bounds s) : Inv bounds s.close := by
  obtain ⟨hmembership, hk, hrequests⟩ := h.registry.shut.finishes_all s.coordinator.requests.keys
  unfold State.close
  generalize s.coordinator.requests.keys.foldl Coordinator.finishLocked s.coordinator.shut = last at hmembership hk hrequests
  have hclosed : last.closed = true := hk.closed
  have hunregistered : ∀ request, last.requests.get? request = none := by
    intro request
    rw [hrequests]
    split
    case isTrue => rfl
    case isFalse hnot => exact Dict.get?_eq_none_iff.mpr hnot
  have hdead : ∀ f flight, ¬last.Lives f flight := by
    intro f flight hlives
    obtain ⟨request, hin⟩ := hmembership.inhabited f flight hlives
    have hregistered := (hmembership.registered request flight.key).mpr ⟨f, flight, hlives, rfl, hin⟩
    rw [hunregistered] at hregistered
    cases hregistered
  have hempty : last.flights.keys = [] := by
    refine List.eq_nil_iff_forall_not_mem.mpr fun key hmem => ?_
    obtain ⟨f, hlisted⟩ := Dict.mem_keys_iff.mp hmem
    obtain ⟨flight, hlives, -⟩ := hmembership.lives hlisted
    exact hdead f flight hlives
  have hobject : ∀ f flight, s.coordinator.objects.get? f = some flight → ∃ flight', last.objects.get? f = some flight' ∧
      flight'.key = flight.key ∧ (flight'.state = .registered → flight.state = .registered) := by
    intro f flight hfound
    obtain ⟨flight', hthen, hkey, hstate⟩ := hk.object f (s.coordinator.shutFlight f flight) (by rw [get?_shut, hfound, map_some])
    exact ⟨flight', hthen, hkey.trans shutFlight_same.1, fun hregistered => shutFlight_registered (hstate ▸ hregistered)⟩
  constructor
  case registry =>
    refine { toMembership := hmembership, counted := fun f flight hlives => absurd hlives (hdead f flight), reserved := ?_,
             closed := fun _ => hempty, opened := fun f flight hlives => absurd hlives (hdead f flight) }
    rw [Coordinator.reserved, hempty]
    exact Nat.zero_le _
  case running =>
    refine Running.notifyAll ⟨fun t call r key f hcall hplace => ?_, fun t call r key f flight _ _ _ hlives => absurd hlives (hdead f flight),
      h.running.oneLeader, h.running.oneCall, fun f flight hlives => absurd hlives (hdead f flight)⟩
    obtain ⟨flight, hfound, rfl, hstate, -⟩ := h.running.placed t call r key f hcall hplace
    obtain ⟨flight', hthen, hkey, hregistered⟩ := hobject f flight hfound
    refine ⟨flight', hthen, hkey, fun hstate' => hstate (hregistered hstate'), fun hopen => ?_⟩
    rw [hclosed] at hopen
    cases hopen
  case sleeping => exact Sleeping.notifyAll _ _
  case results =>
    refine Results.notifyAll ⟨h.results.once, fun f readable hread => (h.results.known f readable hread).trans_le hk.nextId, ?_,
      h.results.reading, h.results.read, fun f flight value hfound hvalue => ?_, fun f flight hlives => absurd hlives (hdead f flight),
      fun f flight _ _ hlives => absurd hlives (hdead f flight)⟩
    · intro f flight' readable hfound hregistered hread
      rcases hk.made f flight' hfound with ⟨hnew, -⟩ | ⟨shut, hshut, -⟩
      · exact absurd (h.results.known f readable hread) (Nat.not_lt.mpr hnew)
      rw [get?_shut] at hshut
      obtain ⟨flight, hbefore, rfl⟩ := map_eq_some_iff.mp hshut
      obtain ⟨found, hthen, -, hstate⟩ := hobject f flight hbefore
      rw [hfound, some.injEq] at hthen
      exact h.results.unread f flight readable hbefore (hstate (hthen ▸ hregistered)) hread
    refine absurd (hmembership.retained f flight hfound ?_) (hdead f flight)
    rw [hvalue]
    exact nofun
  case right =>
    intro one hone
    refine ⟨(h.right one hone).1, fun value hvalue => ?_⟩
    obtain ⟨f, flight, readable, hf, hfound, hkey, hread⟩ := (h.right one hone).2 value hvalue
    obtain ⟨flight', hthen, hsame, -⟩ := hobject f flight hfound
    exact ⟨f, flight', readable, hf, hthen, hsame.trans hkey, hread⟩

/-- Every proper step keeps the invariant. -/
theorem Inv.step {act : Act β} (h : Inv bounds s) (hproper : Proper s act) (hstep : PageBase.step bounds s act = some s') :
    Inv bounds s' := by
  cases act with
  | registerCohort key requestIds =>
    cases hstep
    exact h.registerCohort key requestIds
  | resolve thread request key allowIndependent =>
    rw [PageBase.step] at hstep
    obtain ⟨hnew, ⟨⟩⟩ := Option.ite_none_left_eq_some.mp hstep
    exact h.resolve (Dict.get?_eq_none_iff.mpr hnew) hproper key allowIndependent
  | readerEnds => exact h.readerEnds hproper hstep
  | proceed => exact h.proceed hstep
  | cancel request =>
    cases hstep
    exact h.cancel request
  | finish =>
    cases hstep
    exact h.finish (not_resolving hproper)
  | close =>
    cases hstep
    exact h.close

/-- Every run of proper steps keeps the invariant. -/
theorem inv_reachable (h : Reachable (PageBase.step bounds) Proper {} s) : Inv bounds s :=
  h.invariant (Inv bounds) inv_init fun _ _ _ _ hs hproper hstep => hs.step hproper hstep

end SparkRing.PageBase
