import SparkRing.FlightRuns

/-!
# Base reads are shared

What the invariant says of every run of proper steps: one reader at a time, the base
of a flight for all its members, an end to every wait and nothing retained in the end.
Two runs outside these show what a second resolve of a request and an interrupted
reader do.
-/

namespace SparkRing.PageBase

open OrderedDict TransitionSystem
open Option (map_some some.injEq)

variable {β : Type} {bounds : FlightBounds} {c c' : Coordinator β} {s s' : State β} {thread : ℕ} {request : String}
  {key : PageBaseReadFlightKey} {f : ℕ} {flight : Flight β} {readable : Readable β} {value : BaseValue β}

/-- No call leads a flight. -/
def State.Unled (s : State β) (f : ℕ) : Prop :=
  ∀ t call r key, s.calls.get? t = some call → call.place = some (r, key, f) → call.leads = false

/-- A base is read once for its cohort, shared rightly, and nobody waits in vain. -/
structure Shared (bounds : FlightBounds) (s : State β) : Prop where
  /-- One reader of a base runs at a time. -/
  oneReader : ∀ t t' request request' key f f', s.calls.get? t = some (.reading request key f) →
    s.calls.get? t' = some (.reading request' key f') → t = t'
  /-- A flight has one reader. -/
  once : (s.reads.map Prod.fst).Nodup
  /-- Twice the declared bytes of all live flights are bounded. -/
  reserved : s.coordinator.reserved ≤ bounds.maxBytesTotal
  participants : ∀ f flight, s.coordinator.Lives f flight →
    flight.members.card ≤ flight.participantCount ∧ flight.participantCount ≤ bounds.maxMembers
  /-- A call that returns a base as a member returns the one that the reader of its flight
  returned, which has the declared size. -/
  returned : ∀ one ∈ s.resolved, ∀ value, one.outcome = .returned value →
    some value.encodedBytes = one.key.evidence.baseEncodedBytes ∧
      ∃ f flight readable, one.flight = some f ∧ s.coordinator.objects.get? f = some flight ∧ flight.key = one.key ∧
        (f, readable) ∈ s.reads ∧ readable.accept one.key.evidence.baseEncodedBytes = .ok value
  /-- No base was released before use. -/
  used : ∀ one ∈ s.resolved, one.outcome ≠ .releasedBeforeUse
  /-- A base that was read well is retained for the other members, its leader cancelled or not. -/
  retains : ∀ t request key f readable value flight, s.calls.get? t = some (.read request key f readable) →
    readable.accept key.evidence.baseEncodedBytes = .ok value → s.coordinator.Lives f flight →
      ∃ s', step bounds s (.proceed t) = some s' ∧ ∀ other ∈ flight.members, other ≠ request →
        ∃ flight', s'.coordinator.Lives f flight' ∧ other ∈ flight'.members ∧ flight'.state = .ready ∧ flight'.result = some value
  /-- A follower of a ready flight returns its base. -/
  serves : ∀ t request key f asleep flight, s.calls.get? t = some (.following request key f asleep) → s.coordinator.Lives f flight →
    flight.state = .ready → request ∉ flight.cancelled →
      ∃ value s', flight.result = some value ∧ step bounds s (.proceed t) = some s' ∧
        s'.resolved = ⟨request, key, some f, .returned value⟩ :: s.resolved
  /-- A leader whose reader returned or raised can go on, and then no call leads its flight. -/
  leads : ∀ t request key f readable, s.calls.get? t = some (.read request key f readable) →
    ∃ s', step bounds s (.proceed t) = some s' ∧ s'.Unled f
  /-- A follower that is cancelled, or whose flight no call leads, or whose coordinator is
  closed, is awake, and its next section ends its wait. -/
  waits : ∀ t request key f asleep, s.calls.get? t = some (.following request key f asleep) →
    (s.coordinator.closed = true ∨ (∃ flight, s.coordinator.objects.get? f = some flight ∧ request ∈ flight.cancelled) ∨ s.Unled f) →
      asleep = false ∧ ∃ s', step bounds s (.proceed t) = some s' ∧ s'.calls.get? t = none
  /-- Where no request is registered, no flight lives and no base is retained. -/
  released : s.coordinator.requests.keys = [] →
    s.coordinator.flights.keys = [] ∧ ∀ f flight, s.coordinator.objects.get? f = some flight → flight.result = none

theorem calls_publish : (s.publish key f flight).calls = s.calls ∨ (s.publish key f flight).calls = notifyAll s.calls := by
  unfold State.publish
  split
  · exact .inr rfl
  · exact .inl rfl

/-- A leader that publishes leaves its flight without a leader. -/
theorem Running.unled (h : Running s.coordinator s.calls) (hcall : s.calls.get? thread = some (.read request key f readable))
    (s' : State β) (hcalls : s'.calls = s.calls.erase thread ∨ s'.calls = (PageBase.notifyAll s.calls).erase thread) : s'.Unled f := by
  obtain ⟨flight, hobject, hkey, -⟩ := h.placed thread _ request key f hcall rfl
  intro t call r key' hfound hplace
  by_contra hleads
  rw [Bool.not_eq_false] at hleads
  obtain ⟨before, hbefore, hsame, hthen, hne⟩ : ∃ before, s.calls.get? t = some before ∧ before.place = call.place ∧
      before.leads = call.leads ∧ t ≠ thread := by
    rcases hcalls with hcalls | hcalls
    · rw [hcalls] at hfound
      obtain ⟨hne, hold⟩ := Dict.get?_erase_eq_some.mp hfound
      exact ⟨call, hold, rfl, rfl, hne⟩
    rw [hcalls] at hfound
    obtain ⟨hne, hold⟩ := Dict.get?_erase_eq_some.mp hfound
    rw [get?_notifyAll] at hold
    obtain ⟨before, hbefore, rfl⟩ := Option.map_eq_some_iff.mp hold
    exact ⟨before, hbefore, Call.place_wake.symm, Call.leads_wake.symm, hne⟩
  rw [hplace] at hsame
  rw [hleads] at hthen
  obtain ⟨other, hother, hotherKey, -⟩ := h.placed t before r key' f hbefore hsame
  rw [hobject, some.injEq] at hother
  rw [← hother, hkey] at hotherKey
  subst hotherKey
  exact hne (h.oneLeader t thread before _ r request key f f hbefore hsame hthen hcall rfl rfl)

theorem proceed_read (h : s.calls.get? thread = some (.read request key f readable))
    (hobject : s.coordinator.objects.get? f = some flight) :
    step bounds s (.proceed thread) = some (s.lead thread request key f flight readable) := by
  simp only [step, State.proceed, h, hobject, map_some]

theorem proceed_following (h : s.calls.get? thread = some (.following request key f false))
    (hobject : s.coordinator.objects.get? f = some flight) :
    step bounds s (.proceed thread) = some (s.follow thread request key f flight) := by
  simp only [step, State.proceed, h, hobject, map_some]

theorem calls_lead : (s.lead thread request key f flight readable).calls = s.calls.erase thread ∨
    (s.lead thread request key f flight readable).calls = (notifyAll s.calls).erase thread := by
  unfold State.lead
  split
  · exact calls_publish.imp (congrArg (Dict.erase · thread)) (congrArg (Dict.erase · thread))
  · exact calls_publish.imp (congrArg (Dict.erase · thread)) (congrArg (Dict.erase · thread))

/-- A flight that lives through finishing a request is what it was. -/
theorem Keeps.same {stays : String → Prop} {flight' : Flight β} (h : Keeps c c' stays) (hlives : c.Lives f flight)
    (hlives' : c'.Lives f flight') (hstate : flight.state ≠ .registered) :
    flight'.state = flight.state ∧ flight'.result = flight.result := by
  obtain ⟨found, hfound, -, hsame⟩ := h.object f flight hlives.2
  have hobject := hlives'.2
  rw [hfound, some.injEq] at hobject
  subst hobject
  rcases h.lived f found hlives' with hregistered | ⟨before, hbefore, -, -, hresult⟩
  · exact absurd (hsame.symm.trans hregistered) hstate
  · rw [hbefore.same hlives] at hresult
    exact ⟨hsame, hresult⟩

/-- The base of a leader is retained for the other members. -/
theorem Inv.retains (h : Inv bounds s) (hcall : s.calls.get? thread = some (.read request key f readable))
    (haccept : readable.accept key.evidence.baseEncodedBytes = .ok value) (hlives : s.coordinator.Lives f flight) {other : String}
    (hin : other ∈ flight.members) (hother : other ≠ request) :
    ∃ flight', (s.lead thread request key f flight readable).coordinator.Lives f flight' ∧ other ∈ flight'.members ∧
      flight'.state = .ready ∧ flight'.result = some value := by
  obtain ⟨found, hfound, rfl, -⟩ := h.running.placed thread _ request key f hcall rfl
  rw [hlives.2, some.injEq] at hfound
  subst hfound
  have hcoordinator : (s.lead thread request flight.key f flight readable).coordinator =
      (s.coordinator.put f { flight with result := some value, state := .ready }).finishLocked request := by
    simp only [State.lead, haccept, State.publish, if_pos hlives.1]
    rfl
  rw [hcoordinator]
  have hput : (s.coordinator.put f { flight with result := some value, state := .ready }).Lives f
      { flight with result := some value, state := .ready } := by
    refine (lives_put hlives.2 ?_).mpr (.inl ⟨rfl, rfl, hlives⟩)
    rfl
  have hregistry : Registry bounds (s.coordinator.put f { flight with result := some value, state := .ready }) :=
    h.registry.put hlives.2 rfl rfl rfl (fun _ => hlives) fun h => by cases h
  have hk := Keeps.of_finishes (hregistry.finishes request)
  obtain ⟨flight', hlives', hin'⟩ := hk.lives f _ other hput hin hother
  exact ⟨flight', hlives', hin', hk.same hput hlives' fun h => by cases h⟩

/-- A follower that has no reason to wait ends its wait. -/
theorem Inv.waits {asleep : Bool} (h : Inv bounds s) (hcall : s.calls.get? thread = some (.following request key f asleep))
    (hreason : s.coordinator.closed = true ∨ (∃ flight, s.coordinator.objects.get? f = some flight ∧ request ∈ flight.cancelled) ∨
      s.Unled f) : asleep = false ∧ ∃ s', PageBase.step bounds s (.proceed thread) = some s' ∧ s'.calls.get? thread = none := by
  obtain ⟨flight, hobject, rfl, hresolved, hopen⟩ := h.running.placed thread _ request key f hcall rfl
  -- an open flight that no call leads is not being read
  have hunread : s.coordinator.closed = false → s.Unled f → flight.state ≠ .reading := by
    intro hclosed hunled hreading
    obtain ⟨t, call, r, hfound, hplace, hleads⟩ := h.running.led f flight (hopen hclosed).1 hreading
    rw [hunled t call r flight.key hfound hplace] at hleads
    cases hleads
  have hawake : asleep = false := by
    refine Bool.eq_false_iff.mpr fun hasleep => ?_
    subst hasleep
    obtain ⟨hclosed, found, hfound, hreading, hnot⟩ := h.sleeping thread request flight.key f hcall
    rw [hobject, some.injEq] at hfound
    subst hfound
    rcases hreason with hyes | ⟨same, hsame, hin⟩ | hunled
    · rw [hclosed] at hyes
      cases hyes
    · rw [hobject, some.injEq] at hsame
      exact hnot (hsame ▸ hin)
    · exact hunread hclosed hunled hreading
  subst hawake
  refine ⟨rfl, _, proceed_following hcall hobject, ?_⟩
  unfold State.follow
  split
  · exact Dict.get?_erase_self
  next hgoing =>
    rw [not_or, Bool.not_eq_true] at hgoing
    have hunled : s.Unled f := by
      rcases hreason with hyes | ⟨same, hsame, hin⟩ | hunled
      · rw [hgoing.2] at hyes
        cases hyes
      · rw [hobject, some.injEq] at hsame
        exact absurd (hsame ▸ hin) hgoing.1
      · exact hunled
    split
    · exact Dict.get?_erase_self
    · exact Dict.get?_erase_self
    next herror hready =>
      have hclosed := h.registry.opened f flight (hopen hgoing.2).1
      cases hstate : flight.state with
      | reading => exact absurd hstate (hunread hgoing.2 hunled)
      | registered => exact absurd hstate hresolved
      | ready => exact absurd hstate hready
      | error => exact absurd hstate herror
      | closed => exact absurd hstate hclosed

/-- In every run where the resolves of one request do not overlap, no request is finished
while it resolves, and readers raise nothing but an `Exception`, base reads are shared. -/
theorem reads_are_shared (bounds : FlightBounds) (s : State β) (h : Reachable (PageBase.step bounds) Proper {} s) : Shared bounds s := by
  have hinv := inv_reachable h
  constructor
  case oneReader =>
    exact fun t t' request request' key f f' hcall hcall' =>
      hinv.running.oneLeader t t' _ _ request request' key f f' hcall rfl rfl hcall' rfl rfl
  case once => exact hinv.results.once
  case reserved => exact hinv.registry.reserved
  case participants => exact hinv.registry.counted
  case returned =>
    intro one hone value hvalue
    obtain ⟨f, flight, readable, hf, hobject, hkey, hread, haccept⟩ := (hinv.right one hone).2 value hvalue
    exact ⟨encodedBytes_of_accept haccept, f, flight, readable, hf, hobject, hkey, hread, haccept⟩
  case used => exact fun one hone => (hinv.right one hone).1
  case retains =>
    intro t request key f readable value flight hcall haccept hlives
    exact ⟨_, proceed_read hcall hlives.2, fun other hin hother => hinv.retains hcall haccept hlives hin hother⟩
  case serves =>
    intro t request key f asleep flight hcall hlives hready hnot
    have hawake : asleep = false := by
      refine Bool.eq_false_iff.mpr fun hasleep => ?_
      subst hasleep
      obtain ⟨-, found, hfound, hreading, -⟩ := hinv.sleeping t request key f hcall
      rw [hlives.2, Option.some.injEq] at hfound
      rw [← hfound, hready] at hreading
      cases hreading
    subst hawake
    obtain ⟨value, hvalue⟩ := Option.ne_none_iff_exists'.mp (hinv.results.ready f flight hlives hready)
    refine ⟨value, _, hvalue, proceed_following hcall hlives.2, ?_⟩
    have hgoing : ¬(request ∈ flight.cancelled ∨ s.coordinator.closed = true) := by
      rw [not_or]
      exact ⟨hnot, Bool.eq_false_iff.mp (hinv.registry.not_closed hlives)⟩
    rw [State.follow, if_neg hgoing]
    simp only [hready, hvalue]
    rfl
  case leads =>
    intro t request key f readable hcall
    obtain ⟨flight, hobject, -⟩ := hinv.running.placed t _ request key f hcall rfl
    exact ⟨_, proceed_read hcall hobject, hinv.running.unled hcall _ calls_lead⟩
  case waits => exact fun t request key f asleep hcall hreason => hinv.waits hcall hreason
  case released =>
    intro hnone
    have hdead : ∀ f flight, ¬s.coordinator.Lives f flight := by
      intro f flight hlives
      obtain ⟨request, hin⟩ := hinv.registry.inhabited f flight hlives
      have hmem := Dict.mem_keys_iff.mpr ⟨_, (hinv.registry.registered request flight.key).mpr ⟨f, flight, hlives, rfl, hin⟩⟩
      rw [hnone] at hmem
      cases hmem
    refine ⟨List.eq_nil_iff_forall_not_mem.mpr fun key hmem => ?_, fun f flight hobject => ?_⟩
    · obtain ⟨f, hlisted⟩ := Dict.mem_keys_iff.mp hmem
      obtain ⟨flight, hlives, -⟩ := hinv.registry.lives hlisted
      exact hdead f flight hlives
    · by_contra hresult
      exact hdead f flight (hinv.registry.retained f flight hobject hresult)

/-- A check of a step that its callers may take. -/
def checkProper (s : State β) : Act β → Bool
  | .resolve _ request _ _ => !decide (s.resolving request)
  | .finish request => !decide (s.resolving request)
  | .readerEnds _ .interrupts => false
  | _ => true

theorem proper_of_check (s : State β) (act : Act β) (h : checkProper s act = true) : Proper s act := by
  cases act with
  | resolve | finish => simpa [checkProper, Proper] using h
  | readerEnds thread readable =>
    cases readable with
    | interrupts => simp [checkProper] at h
    | bytes | result | other | raises => trivial
  | registerCohort | proceed | cancel | close => trivial

/-- Room for one small base. -/
def sampleBounds : FlightBounds := ⟨1, 2, 3, 6, by decide⟩

/-- A base of three bytes. -/
def sampleKey : PageBaseReadFlightKey := ⟨"worker", "disk", ⟨"identity", "context", "root", "page", "layout", [1], 16, some 3⟩⟩

/-- A follower waits for the base of its leader, and both return it. -/
theorem reads_are_shared_followed : ∃ s : State Unit, Shared sampleBounds s ∧
    s.resolved.map (fun one => (one.request, decide (one.outcome = .returned (.bytes [1, 2, 3])))) = [("b", true), ("a", true)] := by
  obtain ⟨s, hs, hresolved⟩ := Reachable.exists_of_checked_runs checkProper proper_of_check (PageBase.step sampleBounds) ({} : State Unit)
    [.registerCohort sampleKey ["a", "b"], .resolve 0 "a" sampleKey true, .resolve 1 "b" sampleKey true, .proceed 1,
      .readerEnds 0 (.bytes [1, 2, 3]), .proceed 0, .proceed 1]
    (fun s => decide (s.resolved.map (fun one => (one.request, decide (one.outcome = .returned (.bytes [1, 2, 3])))) =
      [("b", true), ("a", true)])) (by decide +kernel)
  exact ⟨s, reads_are_shared sampleBounds s hs, of_decide_eq_true hresolved⟩

/-- No request is finished while it resolves. -/
def FinishedApart (s : State β) : Act β → Prop
  | .finish request => ¬s.resolving request
  | _ => True

/-- A check that no request is finished while it resolves. -/
def checkFinishedApart (s : State β) : Act β → Bool
  | .finish request => !decide (s.resolving request)
  | _ => true

theorem finishedApart_of_check (s : State β) (act : Act β) (h : checkFinishedApart s act = true) : FinishedApart s act := by
  cases act with
  | finish => simpa [checkFinishedApart, FinishedApart] using h
  | resolve thread request key allowIndependent | readerEnds thread readable | registerCohort key requestIds
  | proceed | cancel | close => trivial

/-- The follower of a thread sleeps, and no other call runs. -/
def State.stranded (s : State β) (thread : ℕ) : Bool :=
  match s.calls.get? thread with
  | some (.following _ _ _ true) => decide (s.calls.keys = [thread])
  | _ => false

/-- Two resolves of one request: the first one to end releases the base, and the other one
finds it released before use. And where the reader of a leader is interrupted by something
that is no `Exception`, its follower sleeps on without a leader. -/
theorem resolves_beside_each_other : (∃ s : State Unit, Reachable (PageBase.step sampleBounds) FinishedApart {} s ∧
      ∃ one ∈ s.resolved, one.outcome = .releasedBeforeUse) ∧
    ∃ s : State Unit, Reachable (PageBase.step sampleBounds) FinishedApart {} s ∧ s.stranded 1 = true := by
  constructor
  · obtain ⟨s, hs, hreleased⟩ := Reachable.exists_of_checked_runs checkFinishedApart finishedApart_of_check
      (PageBase.step sampleBounds) ({} : State Unit)
      [.registerCohort sampleKey ["a"], .resolve 0 "a" sampleKey true, .resolve 1 "a" sampleKey true,
        .readerEnds 0 (.bytes [1, 2, 3]), .proceed 0, .proceed 1]
      (fun s => decide (∃ one ∈ s.resolved, one.outcome = .releasedBeforeUse)) (by decide +kernel)
    exact ⟨s, hs, of_decide_eq_true hreleased⟩
  exact Reachable.exists_of_checked_runs checkFinishedApart finishedApart_of_check (PageBase.step sampleBounds) ({} : State Unit)
    [.registerCohort sampleKey ["a", "b"], .resolve 0 "a" sampleKey true, .resolve 1 "b" sampleKey true, .proceed 1,
      .readerEnds 0 .interrupts] (fun s => s.stranded 1) (by decide +kernel)

end SparkRing.PageBase
