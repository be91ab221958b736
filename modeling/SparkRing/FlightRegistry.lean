import SparkRing.ReadFlights

/-!
# What the coordinator keeps true

The registered requests are the members of the live flights, each of one flight, and a
flight lives while it has members. Twice the declared bytes of all live flights and
the participants of each stay within the bounds.
-/

namespace SparkRing.PageBase

open OrderedDict
open Dict (get?_set_eq_some get?_set_of_ne)
open Option (some.injEq)

variable {β : Type} {bounds : FlightBounds} {c c' : Coordinator β} {f g : ℕ} {flight changed other : Flight β} {request : String}
  {key : PageBaseReadFlightKey} {requests : Dict String PageBaseReadFlightKey} {selected : List String}

/-- A flight that is listed under its base. -/
def Coordinator.Lives (c : Coordinator β) (f : ℕ) (flight : Flight β) : Prop :=
  c.flights.get? flight.key = some f ∧ c.objects.get? f = some flight

/-- Twice the declared bytes of all live flights. -/
def Coordinator.reserved (c : Coordinator β) : ℕ := (c.flights.keys.map fun key => 2 * key.declared).sum

/-- What holds at every step of a section under the lock. -/
structure Membership (c : Coordinator β) : Prop where
  /-- A flight is listed under its base. -/
  listed : ∀ key f, c.flights.get? key = some f → ∃ flight, c.objects.get? f = some flight ∧ flight.key = key
  /-- The registered requests are the members of live flights. -/
  registered : ∀ request key, c.requests.get? request = some key ↔
    ∃ f flight, c.Lives f flight ∧ flight.key = key ∧ request ∈ flight.members
  inhabited : ∀ f flight, c.Lives f flight → flight.members.Nonempty
  retained : ∀ f flight, c.objects.get? f = some flight → flight.result ≠ none → c.Lives f flight
  numbered : ∀ f flight, c.objects.get? f = some flight → f < c.nextId

/-- What holds between two sections under the lock. -/
structure Registry (bounds : FlightBounds) (c : Coordinator β) : Prop extends Membership c where
  counted : ∀ f flight, c.Lives f flight → flight.members.card ≤ flight.participantCount ∧ flight.participantCount ≤ bounds.maxMembers
  /-- Twice the declared bytes are bounded. -/
  reserved : c.reserved ≤ bounds.maxBytesTotal
  closed : c.closed = true → c.flights.keys = []
  opened : ∀ f flight, c.Lives f flight → flight.state ≠ .closed

theorem registry_init : Registry bounds ({} : Coordinator β) where
  listed := fun _ _ h => nomatch h
  numbered := fun _ _ h => nomatch h
  registered := by
    intro request key
    constructor
    · exact nofun
    · rintro ⟨f, flight, ⟨hlisted, -⟩, -⟩
      cases hlisted
  inhabited := fun _ _ h => nomatch h.1
  retained := fun _ _ h => nomatch h
  counted := fun _ _ h => nomatch h.1
  reserved := Nat.zero_le _
  closed := nofun
  opened := fun _ _ h => nomatch h.1

theorem Coordinator.Lives.unique (h : c.Lives f flight) (h' : c.Lives g other) (hkey : flight.key = other.key) :
    f = g ∧ flight = other := by
  have hsame : f = g := by
    have hlisted := h.1
    rw [hkey, h'.1, some.injEq] at hlisted
    exact hlisted.symm
  subst hsame
  have hobject := h.2
  rw [h'.2, some.injEq] at hobject
  exact ⟨rfl, hobject.symm⟩

theorem Coordinator.Lives.same (h : c.Lives f flight) (h' : c.Lives f other) : flight = other := by
  have hobject := h.2
  rw [h'.2, some.injEq] at hobject
  exact hobject.symm

theorem Membership.lives (h : Membership c) (hlisted : c.flights.get? key = some f) : ∃ flight, c.Lives f flight ∧ flight.key = key := by
  obtain ⟨flight, hobject, rfl⟩ := h.listed key f hlisted
  exact ⟨flight, ⟨hlisted, hobject⟩, rfl⟩

/-- Nothing lives in a closed coordinator. -/
theorem Registry.not_closed (h : Registry bounds c) (hlives : c.Lives f flight) : c.closed = false := by
  refine Bool.eq_false_iff.mpr fun hclosed => ?_
  have hmem : flight.key ∈ c.flights.keys := Dict.mem_keys_iff.mpr ⟨f, hlives.1⟩
  rw [h.closed hclosed] at hmem
  cases hmem

/-- A changed flight lives where it lived, and the others as they are. -/
theorem lives_put (hobject : c.objects.get? f = some flight) (hkey : changed.key = flight.key) :
    (c.put f changed).Lives g other ↔ g = f ∧ other = changed ∧ c.Lives f flight ∨ g ≠ f ∧ c.Lives g other := by
  unfold Coordinator.Lives Coordinator.put
  rw [get?_set_eq_some]
  constructor
  · rintro ⟨hlisted, ⟨rfl, rfl⟩ | ⟨hne, hother⟩⟩
    · exact .inl ⟨rfl, rfl, hkey ▸ hlisted, hobject⟩
    · exact .inr ⟨hne, hlisted, hother⟩
  rintro (⟨rfl, rfl, hlisted, -⟩ | ⟨hne, hlisted, hother⟩)
  · exact ⟨hkey.symm ▸ hlisted, .inl ⟨rfl, rfl⟩⟩
  · exact ⟨hlisted, .inr ⟨hne, hother⟩⟩

/-- A flight may change in anything but its base, its members and its participants. -/
theorem Registry.put (h : Registry bounds c) (hobject : c.objects.get? f = some flight) (hkey : changed.key = flight.key)
    (hmembers : changed.members = flight.members) (hcount : changed.participantCount = flight.participantCount)
    (hresult : changed.result ≠ none → c.Lives f flight) (hstate : changed.state = .closed → flight.state = .closed) : Registry bounds (c.put f changed) := by
  have hlives : ∀ g other, (c.put f changed).Lives g other → ∃ before, c.Lives g before ∧ before.key = other.key ∧
      other.members = before.members ∧ other.participantCount = before.participantCount ∧
      (other.state = .closed → before.state = .closed) := by
    intro g other hother
    rcases (lives_put hobject hkey).mp hother with ⟨rfl, rfl, hflight⟩ | ⟨-, hsame⟩
    · exact ⟨flight, hflight, hkey.symm, hmembers, hcount, hstate⟩
    · exact ⟨other, hsame, rfl, rfl, rfl, id⟩
  constructor
  case toMembership =>
    constructor
    case listed =>
      intro key g hlisted
      by_cases hg : g = f
      · subst hg
        obtain ⟨found, hfound, hfoundKey⟩ := h.listed key g hlisted
        rw [hobject, some.injEq] at hfound
        exact ⟨changed, Dict.get?_set_self, hkey.trans (hfound ▸ hfoundKey)⟩
      · obtain ⟨found, hfound, hfoundKey⟩ := h.listed key g hlisted
        exact ⟨found, (get?_set_of_ne hg).trans hfound, hfoundKey⟩
    case registered =>
      intro request key
      rw [show (c.put f changed).requests = c.requests from rfl, h.registered]
      constructor
      · rintro ⟨g, before, hbefore, rfl, hmem⟩
        by_cases hg : g = f
        · subst hg
          have hsame := hbefore.2
          rw [hobject, some.injEq] at hsame
          subst hsame
          exact ⟨g, changed, (lives_put hobject hkey).mpr (.inl ⟨rfl, rfl, hbefore⟩), hkey, hmembers ▸ hmem⟩
        · exact ⟨g, before, (lives_put hobject hkey).mpr (.inr ⟨hg, hbefore⟩), rfl, hmem⟩
      rintro ⟨g, other, hother, rfl, hmem⟩
      obtain ⟨before, hbefore, hbeforeKey, hsame, -⟩ := hlives g other hother
      exact ⟨g, before, hbefore, hbeforeKey, hsame ▸ hmem⟩
    case inhabited =>
      intro g other hother
      obtain ⟨before, hbefore, -, hsame, -⟩ := hlives g other hother
      rw [hsame]
      exact h.inhabited g before hbefore
    case retained =>
      intro g other hother hretained
      rcases get?_set_eq_some.mp hother with ⟨rfl, rfl⟩ | ⟨hne, hold⟩
      · exact (lives_put hobject hkey).mpr (.inl ⟨rfl, rfl, hresult hretained⟩)
      · exact (lives_put hobject hkey).mpr (.inr ⟨hne, h.retained g other hold hretained⟩)
    case numbered =>
      intro g found hfound
      rcases get?_set_eq_some.mp hfound with ⟨rfl, -⟩ | ⟨-, hold⟩
      · exact h.numbered g flight hobject
      · exact h.numbered g found hold
  case counted =>
    intro g other hother
    obtain ⟨before, hbefore, -, hsame, hcounted, -⟩ := hlives g other hother
    rw [hsame, hcounted]
    exact h.counted g before hbefore
  case reserved => exact h.reserved
  case closed => exact h.closed
  case opened =>
    intro g other hother hclosed
    obtain ⟨before, hbefore, -, -, -, hthen⟩ := hlives g other hother
    exact h.opened g before hbefore (hthen hclosed)

def Flight.without (flight : Flight β) (request : String) : Flight β :=
  { flight with members := flight.members.erase request, cancelled := flight.cancelled.erase request }

/-- A flight whose last member left. -/
def Flight.released (flight : Flight β) (request : String) : Flight β :=
  { flight.without request with result := none, error := none }

/-- What finishing a request can do. -/
inductive Finishes (c : Coordinator β) (request : String) : Coordinator β → Prop
  /-- The request is not registered. -/
  | absent : c.requests.get? request = none → Finishes c request c
  /-- Others stay in its flight. -/
  | leaves {f : ℕ} {flight : Flight β} : c.Lives f flight → request ∈ flight.members → (flight.without request).members.Nonempty →
      Finishes c request { c.put f (flight.without request) with requests := c.requests.erase request }
  | releases {f : ℕ} {flight : Flight β} : c.Lives f flight → request ∈ flight.members → (flight.without request).members = ∅ →
      Finishes c request { c.put f (flight.released request) with
        requests := c.requests.erase request, flights := c.flights.erase flight.key }

theorem Membership.finishes (h : Membership c) (request : String) : Finishes c request (c.finishLocked request) := by
  unfold Coordinator.finishLocked
  cases hrequest : c.requests.get? request with
  | none => exact .absent hrequest
  | some key =>
    obtain ⟨f, flight, hlives, rfl, hmem⟩ := (h.registered request key).mp hrequest
    dsimp only
    rw [hlives.1]
    dsimp only
    rw [hlives.2]
    dsimp only
    split
    case isTrue hrest => exact .leaves hlives hmem hrest
    case isFalse hrest => exact .releases hlives hmem (Finset.not_nonempty_iff_eq_empty.mp hrest)

theorem lives_releases (hlives : c.Lives f flight) : Coordinator.Lives { c.put f (flight.released request) with
    requests := c.requests.erase request, flights := c.flights.erase flight.key } g other ↔ g ≠ f ∧ c.Lives g other := by
  unfold Coordinator.Lives Coordinator.put
  rw [Dict.get?_erase_eq_some, get?_set_eq_some]
  constructor
  · rintro ⟨⟨hkey, hlisted⟩, ⟨rfl, rfl⟩ | ⟨hne, hobject⟩⟩
    · exact absurd rfl hkey
    · exact ⟨hne, hlisted, hobject⟩
  · rintro ⟨hne, hlisted, hobject⟩
    exact ⟨⟨fun hkey => hne (Coordinator.Lives.unique ⟨hlisted, hobject⟩ hlives hkey).1, hlisted⟩, .inr ⟨hne, hobject⟩⟩

theorem lives_leaves (hlives : c.Lives f flight) :
    Coordinator.Lives { c.put f (flight.without request) with requests := c.requests.erase request } g other ↔
      g = f ∧ other = flight.without request ∨ g ≠ f ∧ c.Lives g other := by
  have hput : (c.put f (flight.without request)).Lives g other ↔
      g = f ∧ other = flight.without request ∧ c.Lives f flight ∨ g ≠ f ∧ c.Lives g other := lives_put hlives.2 rfl
  refine hput.trans (or_congr_left ?_)
  rw [and_iff_left hlives]

/-- Another live flight has other members. -/
theorem Membership.other_member (h : Membership c) (hlives : c.Lives f flight) (hmem : request ∈ flight.members) (hne : g ≠ f)
    (hother : c.Lives g other) : request ∉ other.members := by
  intro hin
  have hsame := (h.registered request flight.key).mpr ⟨f, flight, hlives, rfl, hmem⟩
  rw [(h.registered request other.key).mpr ⟨g, other, hother, rfl, hin⟩, some.injEq] at hsame
  exact hne (hother.unique hlives hsame).1

/-- Finishing a request keeps the membership. -/
theorem Membership.of_finishes (h : Membership c) (hf : Finishes c request c') : Membership c' := by
  cases hf with
  | absent => exact h
  | @leaves f flight hlives hmem hrest =>
    constructor
    case listed =>
      intro key g hlisted
      obtain ⟨found, hfound, rfl⟩ := h.lives hlisted
      by_cases hg : g = f
      · subst hg
        obtain rfl := hfound.same hlives
        exact ⟨found.without request, Dict.get?_set_self, rfl⟩
      · exact ⟨found, (get?_set_of_ne hg).trans hfound.2, rfl⟩
    case registered =>
      intro r key
      rw [Dict.get?_erase_eq_some, h.registered]
      constructor
      · rintro ⟨hne, g, found, hfound, rfl, hin⟩
        by_cases hg : g = f
        · subst hg
          obtain rfl := hfound.same hlives
          exact ⟨g, found.without request, (lives_leaves hlives).mpr (.inl ⟨rfl, rfl⟩), rfl, Finset.mem_erase.mpr ⟨hne, hin⟩⟩
        · exact ⟨g, found, (lives_leaves hlives).mpr (.inr ⟨hg, hfound⟩), rfl, hin⟩
      rintro ⟨g, found, hfound, rfl, hin⟩
      rcases (lives_leaves hlives).mp hfound with ⟨rfl, rfl⟩ | ⟨hg, hold⟩
      · exact ⟨(Finset.mem_erase.mp hin).1, g, flight, hlives, rfl, (Finset.mem_erase.mp hin).2⟩
      refine ⟨?_, g, found, hold, rfl, hin⟩
      rintro rfl
      exact h.other_member hlives hmem hg hold hin
    case inhabited =>
      intro g other hother
      rcases (lives_leaves hlives).mp hother with ⟨-, rfl⟩ | ⟨-, hold⟩
      · exact hrest
      · exact h.inhabited g other hold
    case retained =>
      intro g other hother hretained
      rcases get?_set_eq_some.mp hother with ⟨rfl, rfl⟩ | ⟨hne, hold⟩
      · exact (lives_leaves hlives).mpr (.inl ⟨rfl, rfl⟩)
      · exact (lives_leaves hlives).mpr (.inr ⟨hne, h.retained g other hold hretained⟩)
    case numbered =>
      intro g found hfound
      rcases get?_set_eq_some.mp hfound with ⟨rfl, -⟩ | ⟨-, hold⟩
      · exact h.numbered g flight hlives.2
      · exact h.numbered g found hold
  | @releases f flight hlives hmem hrest =>
    constructor
    case listed =>
      intro key g hlisted
      obtain ⟨hne, hlisted⟩ := Dict.get?_erase_eq_some.mp hlisted
      obtain ⟨found, hfound, rfl⟩ := h.lives hlisted
      refine ⟨found, (get?_set_of_ne ?_).trans hfound.2, rfl⟩
      rintro rfl
      exact hne (congrArg Flight.key (hfound.same hlives))
    case registered =>
      intro r key
      rw [Dict.get?_erase_eq_some, h.registered]
      constructor
      · rintro ⟨hne, g, found, hfound, rfl, hin⟩
        refine ⟨g, found, (lives_releases hlives).mpr ⟨?_, hfound⟩, rfl, hin⟩
        rintro rfl
        obtain rfl := hfound.same hlives
        have hleft : r ∈ (found.without request).members := Finset.mem_erase.mpr ⟨hne, hin⟩
        rw [hrest] at hleft
        exact Finset.notMem_empty r hleft
      rintro ⟨g, found, hfound, rfl, hin⟩
      obtain ⟨hg, hold⟩ := (lives_releases hlives).mp hfound
      refine ⟨?_, g, found, hold, rfl, hin⟩
      rintro rfl
      exact h.other_member hlives hmem hg hold hin
    case inhabited => exact fun g other hother => h.inhabited g other ((lives_releases hlives).mp hother).2
    case retained =>
      intro g other hother hretained
      rcases get?_set_eq_some.mp hother with ⟨rfl, rfl⟩ | ⟨hne, hold⟩
      · exact absurd rfl hretained
      · exact (lives_releases hlives).mpr ⟨hne, h.retained g other hold hretained⟩
    case numbered =>
      intro g found hfound
      rcases get?_set_eq_some.mp hfound with ⟨rfl, -⟩ | ⟨-, hold⟩
      · exact h.numbered g flight hlives.2
      · exact h.numbered g found hold

theorem reserved_erase_le : ((c.flights.erase key).keys.map fun key => 2 * key.declared).sum ≤ c.reserved :=
  ((List.filter_sublist.map Prod.fst).map _).sum_le_sum fun _ _ => Nat.zero_le _

/-- Finishing a request keeps the registry. -/
theorem Registry.of_finishes (h : Registry bounds c) (hf : Finishes c request c') : Registry bounds c' := by
  have hmembership := h.toMembership.of_finishes hf
  cases hf with
  | absent => exact h
  | @leaves f flight hlives hmem hrest =>
    refine ⟨hmembership, ?counted, h.reserved, h.closed, ?opened⟩
    case counted =>
      intro g other hother
      rcases (lives_leaves hlives).mp hother with ⟨-, rfl⟩ | ⟨-, hold⟩
      · obtain ⟨hcard, hmax⟩ := h.counted f flight hlives
        exact ⟨Finset.card_erase_le.trans hcard, hmax⟩
      · exact h.counted g other hold
    case opened =>
      intro g other hother
      rcases (lives_leaves hlives).mp hother with ⟨-, rfl⟩ | ⟨-, hold⟩
      · exact h.opened f flight hlives
      · exact h.opened g other hold
  | @releases f flight hlives hmem hrest =>
    constructor
    case toMembership => exact hmembership
    case counted => exact fun g other hother => h.counted g other ((lives_releases hlives).mp hother).2
    case reserved => exact reserved_erase_le.trans h.reserved
    case closed => exact fun hclosed => absurd hclosed (Bool.eq_false_iff.mp (h.not_closed hlives))
    case opened => exact fun g other hother => h.opened g other ((lives_releases hlives).mp hother).2

/-- What enrolling requests does to a flight and to the registered requests. -/
structure Enrolled (bounds : FlightBounds) (key : PageBaseReadFlightKey) (flight : Flight β) (requests : Dict String PageBaseReadFlightKey)
    (enrolled : Flight β × Dict String PageBaseReadFlightKey × List String) : Prop where
  same : enrolled.1 = { flight with members := enrolled.1.members, participantCount := enrolled.1.participantCount }
  /-- The members are those before and the accepted requests. -/
  members : ∀ request, request ∈ enrolled.1.members ↔ request ∈ flight.members ∨ request ∈ enrolled.2.2
  /-- The accepted requests are registered with this base, and the others as before. -/
  registered : ∀ request other, enrolled.2.1.get? request = some other ↔
    request ∈ enrolled.2.2 ∧ other = key ∨ requests.get? request = some other
  /-- The accepted requests were not registered. -/
  selected : ∀ request ∈ enrolled.2.2, requests.get? request = none
  counted : flight.members.card ≤ flight.participantCount → flight.participantCount ≤ bounds.maxMembers →
    enrolled.1.members.card ≤ enrolled.1.participantCount ∧ enrolled.1.participantCount ≤ bounds.maxMembers

theorem enrolled (bounds : FlightBounds) (key : PageBaseReadFlightKey) (ordered : List String) (flight : Flight β)
    (requests : Dict String PageBaseReadFlightKey) :
    Enrolled bounds key flight requests (enroll bounds.maxMembers key ordered flight requests) := by
  induction ordered generalizing flight requests with
  | nil => exact ⟨rfl, fun _ => by simp [enroll], fun _ _ => by simp [enroll], nofun, fun hcard hmax => ⟨hcard, hmax⟩⟩
  | cons request rest ih =>
    rw [enroll]
    split
    case isTrue => exact ih flight requests
    case isFalse hnew =>
      split
      case isTrue => exact ih flight requests
      case isFalse hroom =>
        rw [← Dict.get?_eq_none_iff] at hnew
        have hrest := ih { flight with members := insert request flight.members, participantCount := flight.participantCount + 1 }
          (requests.set request key)
        constructor
        case same => exact hrest.same.trans rfl
        case members =>
          intro r
          rw [hrest.members]
          rw [Finset.mem_insert, List.mem_cons]
          tauto
        case registered =>
          intro r other
          rw [hrest.registered, get?_set_eq_some]
          by_cases hr : r = request
          · subst hr
            rw [hnew]
            simp
          · simp [hr]
        case selected =>
          intro r hr
          rcases List.mem_cons.mp hr with rfl | hr
          · exact hnew
          have hnone := hrest.selected r hr
          rw [Dict.get?_set] at hnone
          split at hnone
          · cases hnone
          · exact hnone
        case counted =>
          intro hcard hmax
          refine hrest.counted ((Finset.card_insert_le ..).trans (Nat.succ_le_succ hcard)) ?_
          exact Nat.succ_le_of_lt (Nat.not_le.mp hroom)

theorem keys_set_of_none {flights : Dict PageBaseReadFlightKey ℕ} (h : flights.get? key = none) :
    (flights.set key f).keys = flights.keys ++ [key] := by
  rw [Dict.set, dif_neg (Dict.get?_eq_none_iff.mp h), Dict.keys, List.map_append, List.map_singleton]
  rfl

/-- A flight that requests may join: it lives, or it is new and within the bounds. -/
def Joinable (bounds : FlightBounds) (c : Coordinator β) (f : ℕ) (flight : Flight β) : Prop :=
  c.Lives f flight ∨ c.flights.get? flight.key = none ∧ f = c.nextId ∧ flight = { key := flight.key } ∧
    c.reserved + 2 * flight.key.declared ≤ bounds.maxBytesTotal

abbrev Coordinator.joined (c : Coordinator β) (key : PageBaseReadFlightKey) (f : ℕ) (flight : Flight β)
    (requests : Dict String PageBaseReadFlightKey) : Coordinator β :=
  { c.put f flight with flights := c.flights.set key f, nextId := max c.nextId (f + 1), requests := requests }

/-- What registering a cohort can do. -/
inductive Joins (bounds : FlightBounds) (c : Coordinator β) : Coordinator β → Prop
  | nothing : Joins bounds c c
  | joined {f : ℕ} {flight changed : Flight β} {requests : Dict String PageBaseReadFlightKey} {selected : List String} :
      c.closed = false → flight.state ≠ .error → Joinable bounds c f flight →
      Enrolled bounds flight.key flight c.requests (changed, requests, selected) → selected ≠ [] → (designated : Option String) →
      Joins bounds c (c.joined flight.key f { changed with designatedLeaderRequestId := designated } requests)

theorem Registry.joins (h : Registry bounds c) (key : PageBaseReadFlightKey) (requestIds : List String) :
    Joins bounds c (c.registerCohort bounds key requestIds).1 := by
  have hjoin : ∀ f (flight : Flight β) ordered, c.closed = false → flight.state ≠ .error → Joinable bounds c f flight →
      Joins bounds c (c.join bounds flight.key f flight ordered).1 := by
    intro f flight ordered hopen hstate hflight
    have henrolled := enrolled bounds flight.key ordered flight c.requests
    unfold Coordinator.join
    dsimp only
    split
    case isTrue => exact .nothing
    case isFalse hselected => exact .joined hopen hstate hflight henrolled hselected _
  unfold Coordinator.registerCohort
  dsimp only
  split
  · exact .nothing
  split
  · exact .nothing
  next hopen =>
    rw [Bool.not_eq_true] at hopen
    split
    next f hlisted =>
      obtain ⟨flight, hlives, rfl⟩ := h.lives hlisted
      rw [hlives.2]
      dsimp only
      split
      · exact .nothing
      next hstate => exact hjoin f flight _ hopen hstate (.inl hlives)
    next hnone =>
      split
      · exact .nothing
      split
      · exact .nothing
      split
      · exact .nothing
      split
      · exact .nothing
      next hreserved =>
        split
        · exact .nothing
        · exact hjoin c.nextId { key := key } _ hopen nofun (.inr ⟨hnone, rfl, rfl, Nat.not_lt.mp hreserved⟩)

section

variable (hflight : Joinable bounds c f flight)

include hflight

/-- A base has no other flight than the one that is joined. -/
theorem Joinable.only (hother : c.Lives g other) (hkey : other.key = flight.key) : g = f ∧ other = flight := by
  rcases hflight with hlives | ⟨hnone, -⟩
  · exact hother.unique hlives hkey
  · rw [← hkey, hother.1] at hnone
    cases hnone

/-- The number of a flight that is joined is its own. -/
theorem Joinable.number (h : Registry bounds c) (hobject : c.objects.get? f = some other) : c.Lives f flight ∧ other = flight := by
  rcases hflight with hlives | ⟨-, rfl, -⟩
  · refine ⟨hlives, ?_⟩
    rw [hlives.2, some.injEq] at hobject
    exact hobject.symm
  · exact absurd (h.numbered _ _ hobject) (Nat.lt_irrefl _)

theorem Joinable.lives_joined (hkey : changed.key = flight.key) :
    (c.joined flight.key f changed requests).Lives g other ↔ g = f ∧ other = changed ∨ g ≠ f ∧ c.Lives g other := by
  unfold Coordinator.Lives Coordinator.joined Coordinator.put
  rw [get?_set_eq_some, get?_set_eq_some]
  constructor
  · rintro ⟨hlisted, ⟨rfl, rfl⟩ | ⟨hne, hobject⟩⟩
    · exact .inl ⟨rfl, rfl⟩
    rcases hlisted with ⟨-, rfl⟩ | ⟨-, hlisted⟩
    · exact absurd rfl hne
    · exact .inr ⟨hne, hlisted, hobject⟩
  rintro (⟨rfl, rfl⟩ | ⟨hne, hlisted, hobject⟩)
  · exact ⟨.inl ⟨hkey, rfl⟩, .inl ⟨rfl, rfl⟩⟩
  · exact ⟨.inr ⟨fun hsame => hne (hflight.only ⟨hlisted, hobject⟩ hsame).1, hlisted⟩, .inr ⟨hne, hobject⟩⟩

/-- The members of a flight that is joined were registered. -/
theorem Joinable.member (h : Registry bounds c) (hin : request ∈ flight.members) : c.requests.get? request = some flight.key := by
  rcases hflight with hlives | ⟨-, -, hmade, -⟩
  · exact (h.registered request flight.key).mpr ⟨f, flight, hlives, rfl, hin⟩
  · rw [hmade] at hin
    exact absurd hin (Finset.notMem_empty request)

end

/-- Joining a flight keeps the registry. -/
theorem Registry.joined (h : Registry bounds c)
    (hopen : c.closed = false) (hflight : Joinable bounds c f flight) (hkey : changed.key = flight.key)
    (hstate : changed.state = flight.state)
    (henrolled : Enrolled bounds flight.key flight c.requests (other, requests, selected)) (hselected : selected ≠ [])
    (hmembers : changed.members = other.members) (hcount : changed.participantCount = other.participantCount) :
    Registry bounds (c.joined flight.key f changed requests) := by
  have hlives : ∀ g found, (c.joined flight.key f changed requests).Lives g found ↔ g = f ∧ found = changed ∨ g ≠ f ∧ c.Lives g found :=
    fun g found => hflight.lives_joined hkey
  have hin : ∀ request, request ∈ changed.members ↔ request ∈ flight.members ∨ request ∈ selected := by
    intro request
    rw [hmembers]
    exact henrolled.members request
  constructor
  case toMembership =>
    constructor
    case listed =>
      intro key g hlisted
      rcases get?_set_eq_some.mp hlisted with ⟨rfl, rfl⟩ | ⟨hne, hold⟩
      · exact ⟨changed, Dict.get?_set_self, hkey⟩
      obtain ⟨found, hfound, rfl⟩ := h.lives hold
      refine ⟨found, (get?_set_of_ne ?_).trans hfound.2, rfl⟩
      rintro rfl
      exact hne (congrArg Flight.key (hflight.number h hfound.2).2)
    case registered =>
      intro request key
      rw [show requests.get? request = some key ↔ _ from henrolled.registered request key]
      constructor
      · rintro (⟨hnew, rfl⟩ | hold)
        · exact ⟨f, changed, (hlives _ _).mpr (.inl ⟨rfl, rfl⟩), hkey, (hin request).mpr (.inr hnew)⟩
        obtain ⟨g, found, hfound, rfl, hmem⟩ := (h.registered request key).mp hold
        by_cases hg : g = f
        · subst hg
          obtain ⟨-, rfl⟩ := hflight.number h hfound.2
          exact ⟨g, changed, (hlives _ _).mpr (.inl ⟨rfl, rfl⟩), hkey, (hin request).mpr (.inl hmem)⟩
        · exact ⟨g, found, (hlives _ _).mpr (.inr ⟨hg, hfound⟩), rfl, hmem⟩
      rintro ⟨g, found, hfound, rfl, hmem⟩
      rcases (hlives _ _).mp hfound with ⟨rfl, rfl⟩ | ⟨-, hold⟩
      · rcases (hin request).mp hmem with hmem | hnew
        · exact .inr (hkey ▸ hflight.member h hmem)
        · exact .inl ⟨hnew, hkey⟩
      · exact .inr ((h.registered request found.key).mpr ⟨g, found, hold, rfl, hmem⟩)
    case inhabited =>
      intro g found hfound
      rcases (hlives _ _).mp hfound with ⟨rfl, rfl⟩ | ⟨-, hold⟩
      · obtain ⟨request, hnew⟩ := List.exists_mem_of_ne_nil _ hselected
        exact ⟨request, (hin request).mpr (.inr hnew)⟩
      · exact h.inhabited g found hold
    case retained =>
      intro g found hfound hretained
      rcases get?_set_eq_some.mp hfound with ⟨rfl, rfl⟩ | ⟨hne, hold⟩
      · exact (hlives _ _).mpr (.inl ⟨rfl, rfl⟩)
      · exact (hlives _ _).mpr (.inr ⟨hne, h.retained g found hold hretained⟩)
    case numbered =>
      intro g found hfound
      rcases get?_set_eq_some.mp hfound with ⟨rfl, -⟩ | ⟨-, hold⟩
      · exact lt_max_of_lt_right (Nat.lt_succ_self _)
      · exact lt_max_of_lt_left (h.numbered g found hold)
  case counted =>
    intro g found hfound
    rcases (hlives _ _).mp hfound with ⟨rfl, rfl⟩ | ⟨-, hold⟩
    · rw [hmembers, hcount]
      rcases hflight with hold | ⟨-, -, hmade, -⟩
      · exact henrolled.counted (h.counted g flight hold).1 (h.counted g flight hold).2
      · exact henrolled.counted (hmade ▸ le_rfl) (hmade ▸ Nat.zero_le _)
    · exact h.counted g found hold
  case reserved =>
    unfold Coordinator.reserved
    rcases hflight with hold | ⟨hnone, -, -, hreserved⟩
    · rw [Dict.keys_set_of_mem (Dict.mem_keys_iff.mpr ⟨f, hold.1⟩)]
      exact h.reserved
    · rw [keys_set_of_none hnone, List.map_append, List.sum_append, List.map_singleton, List.sum_singleton]
      exact hreserved
  case closed =>
    intro hclosed
    rw [show c.closed = true from hclosed] at hopen
    cases hopen
  case opened =>
    intro g found hfound
    rcases (hlives _ _).mp hfound with ⟨rfl, rfl⟩ | ⟨-, hold⟩
    · rw [hstate]
      rcases hflight with hold | ⟨-, -, hmade, -⟩
      · exact h.opened g flight hold
      · rw [hmade]
        exact nofun
    · exact h.opened g found hold

theorem Enrolled.unchanged (h : Enrolled bounds key flight c.requests (changed, requests, selected)) :
    changed.key = flight.key ∧ changed.state = flight.state ∧ changed.result = flight.result ∧ changed.cancelled = flight.cancelled := by
  have hsame : changed = { flight with members := changed.members, participantCount := changed.participantCount } := h.same
  rw [hsame]
  exact ⟨rfl, rfl, rfl, rfl⟩

/-- Registering a cohort keeps the registry. -/
theorem Registry.of_joins (h : Registry bounds c) (hj : Joins bounds c c') : Registry bounds c' := by
  cases hj with
  | nothing => exact h
  | joined hopen hstate hflight henrolled hselected designated =>
    obtain ⟨hkey, hsame, -⟩ := henrolled.unchanged
    exact h.joined hopen hflight hkey hsame henrolled hselected rfl rfl

end SparkRing.PageBase
