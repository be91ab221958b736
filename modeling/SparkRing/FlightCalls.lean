import SparkRing.FlightRegistry

/-!
# What running calls rely on

A call that runs as a member of a flight keeps its flight alive until the coordinator
closes. A flight is being read while one call leads it, no other call leads a flight of
the same base, and a follower sleeps only while there is something to wait for.
-/

namespace SparkRing.PageBase

open OrderedDict
open Dict (get?_set_eq_some get?_set_of_ne get?_set_self)
open Option (some.injEq)

variable {β : Type} {bounds : FlightBounds} {c c' : Coordinator β} {calls : Dict ℕ (Call β)} {call call' : Call β} {t t' f f' : ℕ}
  {flight flight' changed : Flight β} {request r r' : String} {key : PageBaseReadFlightKey} {stays : String → Prop}

/-- The request, the base and the flight of a call that runs as a member of a flight. -/
def Call.place : Call β → Option (String × PageBaseReadFlightKey × ℕ)
  | .independent _ => none
  | .reading request key f => some (request, key, f)
  | .read request key f _ => some (request, key, f)
  | .following request key f _ => some (request, key, f)

/-- The call leads its flight. -/
def Call.leads : Call β → Bool
  | .reading .. | .read .. => true
  | _ => false

theorem Call.member_eq : call.member = call.place.map Prod.fst := by
  cases call <;> rfl

@[simp] theorem Call.place_wake : call.wake.place = call.place := by
  cases call <;> rfl

@[simp] theorem Call.leads_wake : call.wake.leads = call.leads := by
  cases call <;> rfl

/-- A section under the lock that leaves the flights of some requests alive and all flights
in their states. -/
structure Keeps (c c' : Coordinator β) (stays : String → Prop) : Prop where
  /-- The coordinator is as open. -/
  closed : c'.closed = c.closed
  /-- Numbers are not used again. -/
  nextId : c.nextId ≤ c'.nextId
  object : ∀ f flight, c.objects.get? f = some flight →
    ∃ flight', c'.objects.get? f = some flight' ∧ flight'.key = flight.key ∧ flight'.state = flight.state
  /-- A new flight is registered, and no flight has a new base. -/
  made : ∀ f flight', c'.objects.get? f = some flight' →
    c.nextId ≤ f ∧ flight'.result = none ∨
      ∃ flight, c.objects.get? f = some flight ∧ ∀ value, flight'.result = some value → flight.result = some value
  /-- The flights of these requests live. -/
  lives : ∀ f flight r, c.Lives f flight → r ∈ flight.members → stays r → ∃ flight', c'.Lives f flight' ∧ r ∈ flight'.members
  lived : ∀ f flight', c'.Lives f flight' → flight'.state = .registered ∨
    ∃ flight, c.Lives f flight ∧ flight'.key = flight.key ∧ flight'.state = flight.state ∧ flight'.result = flight.result

/-- Finishing a request keeps the flights of the others. -/
theorem Keeps.of_finishes (hf : Finishes c request c') : Keeps c c' (· ≠ request) := by
  cases hf with
  | absent =>
    exact ⟨rfl, le_rfl, fun f flight hobject => ⟨flight, hobject, rfl, rfl⟩, fun f flight hobject => .inr ⟨flight, hobject, fun _ => id⟩,
      fun f flight r hlives hin _ => ⟨flight, hlives, hin⟩, fun f flight hlives => .inr ⟨flight, hlives, rfl, rfl, rfl⟩⟩
  | @leaves g found hfound hmem hrest =>
    refine ⟨rfl, le_rfl, fun f flight hobject => ?_, fun f flight' hobject => ?_, fun f flight r hlives hin hr => ?_,
      fun f flight' hlives => ?_⟩
    · by_cases hfg : f = g
      · subst hfg
        rw [hfound.2, some.injEq] at hobject
        exact ⟨found.without request, get?_set_self, hobject ▸ rfl, hobject ▸ rfl⟩
      · exact ⟨flight, (get?_set_of_ne hfg).trans hobject, rfl, rfl⟩
    · rcases get?_set_eq_some.mp hobject with ⟨rfl, rfl⟩ | ⟨-, hold⟩
      · exact .inr ⟨found, hfound.2, fun _ => id⟩
      · exact .inr ⟨flight', hold, fun _ => id⟩
    · by_cases hfg : f = g
      · subst hfg
        obtain rfl := hlives.same hfound
        exact ⟨flight.without request, (lives_leaves hfound).mpr (.inl ⟨rfl, rfl⟩), Finset.mem_erase.mpr ⟨hr, hin⟩⟩
      · exact ⟨flight, (lives_leaves hfound).mpr (.inr ⟨hfg, hlives⟩), hin⟩
    rcases (lives_leaves hfound).mp hlives with ⟨rfl, rfl⟩ | ⟨-, hold⟩
    · exact .inr ⟨found, hfound, rfl, rfl, rfl⟩
    · exact .inr ⟨flight', hold, rfl, rfl, rfl⟩
  | @releases g found hfound hmem hrest =>
    refine ⟨rfl, le_rfl, fun f flight hobject => ?_, fun f flight' hobject => ?_, fun f flight r hlives hin hr => ?_,
      fun f flight' hlives => ?_⟩
    · by_cases hfg : f = g
      · subst hfg
        rw [hfound.2, some.injEq] at hobject
        exact ⟨found.released request, get?_set_self, hobject ▸ rfl, hobject ▸ rfl⟩
      · exact ⟨flight, (get?_set_of_ne hfg).trans hobject, rfl, rfl⟩
    · rcases get?_set_eq_some.mp hobject with ⟨rfl, rfl⟩ | ⟨-, hold⟩
      · exact .inr ⟨found, hfound.2, fun _ h => nomatch h⟩
      · exact .inr ⟨flight', hold, fun _ => id⟩
    · by_cases hfg : f = g
      · subst hfg
        obtain rfl := hlives.same hfound
        -- another member would have stayed
        have hleft : r ∈ (flight.without request).members := Finset.mem_erase.mpr ⟨hr, hin⟩
        rw [hrest] at hleft
        exact absurd hleft (Finset.notMem_empty r)
      · exact ⟨flight, (lives_releases hfound).mpr ⟨hfg, hlives⟩, hin⟩
    · exact .inr ⟨flight', ((lives_releases hfound).mp hlives).2, rfl, rfl, rfl⟩

/-- Registering a cohort keeps all flights. -/
theorem Keeps.of_joins (h : Registry bounds c) (hj : Joins bounds c c') : Keeps c c' fun _ => True := by
  cases hj with
  | nothing =>
    exact ⟨rfl, le_rfl, fun f flight hobject => ⟨flight, hobject, rfl, rfl⟩, fun f flight hobject => .inr ⟨flight, hobject, fun _ => id⟩,
      fun f flight r hlives hin _ => ⟨flight, hlives, hin⟩, fun f flight hlives => .inr ⟨flight, hlives, rfl, rfl, rfl⟩⟩
  | @joined g found changed requests selected hopen hstate hflight henrolled hselected designated =>
    obtain ⟨hkey, hsame, hresult, -⟩ := henrolled.unchanged
    have hin : ∀ r, r ∈ changed.members ↔ r ∈ found.members ∨ r ∈ selected := henrolled.members
    generalize hlast : { changed with designatedLeaderRequestId := designated } = last
    have hlastKey : last.key = found.key := hlast ▸ hkey
    have hlastState : last.state = found.state := hlast ▸ hsame
    have hlastResult : last.result = found.result := hlast ▸ hresult
    have hlastMembers : last.members = changed.members := hlast ▸ rfl
    have hlives : ∀ f flight, (c.joined found.key g last requests).Lives f flight ↔ f = g ∧ flight = last ∨ f ≠ g ∧ c.Lives f flight :=
      fun f flight => hflight.lives_joined hlastKey
    refine ⟨rfl, le_max_left .., fun f flight hobject => ?_, fun f flight' hobject => ?_, fun f flight r hold hmem _ => ?_,
      fun f flight' hthen => ?_⟩
    · by_cases hfg : f = g
      · subst hfg
        obtain ⟨-, rfl⟩ := hflight.number h hobject
        exact ⟨last, get?_set_self, hlastKey, hlastState⟩
      · exact ⟨flight, (get?_set_of_ne hfg).trans hobject, rfl, rfl⟩
    · rcases get?_set_eq_some.mp hobject with ⟨rfl, rfl⟩ | ⟨-, hold⟩
      · rcases hflight with hold | ⟨-, rfl, hmade, -⟩
        · exact .inr ⟨found, hold.2, fun value hvalue => hlastResult ▸ hvalue⟩
        · refine .inl ⟨le_rfl, ?_⟩
          rw [hlastResult, hmade]
      · exact .inr ⟨flight', hold, fun _ => id⟩
    · by_cases hfg : f = g
      · subst hfg
        obtain ⟨-, rfl⟩ := hflight.number h hold.2
        exact ⟨last, (hlives _ _).mpr (.inl ⟨rfl, rfl⟩), hlastMembers ▸ (hin r).mpr (.inl hmem)⟩
      · exact ⟨flight, (hlives _ _).mpr (.inr ⟨hfg, hold⟩), hmem⟩
    rcases (hlives _ _).mp hthen with ⟨rfl, rfl⟩ | ⟨-, hold⟩
    · rcases hflight with hold | ⟨-, -, hmade, -⟩
      · exact .inr ⟨found, hold, hlastKey, hlastState, hlastResult⟩
      · left
        rw [hlastState, hmade]
    · exact .inr ⟨flight', hold, rfl, rfl, rfl⟩

/-- A change of who is cancelled keeps all flights. -/
theorem Keeps.of_put (hlives : c.Lives f flight) (hkey : changed.key = flight.key) (hstate : changed.state = flight.state)
    (hmembers : changed.members = flight.members) (hresult : changed.result = flight.result) :
    Keeps c (c.put f changed) fun _ => True := by
  refine ⟨rfl, le_rfl, fun g found hobject => ?_, fun g found hobject => ?_, fun g found r hold hin _ => ?_, fun g found hthen => ?_⟩
  · by_cases hg : g = f
    · subst hg
      rw [hlives.2, some.injEq] at hobject
      exact ⟨changed, get?_set_self, hobject ▸ hkey, hobject ▸ hstate⟩
    · exact ⟨found, (get?_set_of_ne hg).trans hobject, rfl, rfl⟩
  · rcases get?_set_eq_some.mp hobject with ⟨rfl, rfl⟩ | ⟨-, hold⟩
    · exact .inr ⟨flight, hlives.2, fun value hvalue => hresult ▸ hvalue⟩
    · exact .inr ⟨found, hold, fun _ => id⟩
  · by_cases hg : g = f
    · subst hg
      obtain rfl := hold.same hlives
      exact ⟨changed, (lives_put hlives.2 hkey).mpr (.inl ⟨rfl, rfl, hlives⟩), hmembers ▸ hin⟩
    · exact ⟨found, (lives_put hlives.2 hkey).mpr (.inr ⟨hg, hold⟩), hin⟩
  rcases (lives_put hlives.2 hkey).mp hthen with ⟨rfl, rfl, -⟩ | ⟨-, hold⟩
  · exact .inr ⟨flight, hlives, hkey, hstate, hresult⟩
  · exact .inr ⟨found, hold, rfl, rfl, rfl⟩

/-- What holds of the calls that run as members of flights. -/
structure Running (c : Coordinator β) (calls : Dict ℕ (Call β)) : Prop where
  /-- A call's flight was resolved, and lives with its request as a member while the
  coordinator is open. -/
  placed : ∀ t call r key f, calls.get? t = some call → call.place = some (r, key, f) →
    ∃ flight, c.objects.get? f = some flight ∧ flight.key = key ∧ flight.state ≠ .registered ∧
      (c.closed = false → c.Lives f flight ∧ r ∈ flight.members)
  /-- A flight that is led is being read. -/
  leading : ∀ t call r key f flight, calls.get? t = some call → call.place = some (r, key, f) → call.leads = true →
    c.Lives f flight → flight.state = .reading
  /-- A base has one leader. -/
  oneLeader : ∀ t t' call call' r r' key f f', calls.get? t = some call → call.place = some (r, key, f) → call.leads = true →
    calls.get? t' = some call' → call'.place = some (r', key, f') → call'.leads = true → t = t'
  /-- A request has one call. -/
  oneCall : ∀ t t' call call' r key key' f f', calls.get? t = some call → call.place = some (r, key, f) →
    calls.get? t' = some call' → call'.place = some (r, key', f') → t = t'
  led : ∀ f flight, c.Lives f flight → flight.state = .reading →
    ∃ t call r, calls.get? t = some call ∧ call.place = some (r, flight.key, f) ∧ call.leads = true

/-- A section that keeps the flights of all calls. -/
theorem Running.keeps (h : Running c calls) (hk : Keeps c c' stays)
    (hstays : ∀ t call r key f, calls.get? t = some call → call.place = some (r, key, f) → stays r) : Running c' calls := by
  constructor
  case placed =>
    intro t call r key f hcall hplace
    obtain ⟨flight, hobject, rfl, hstate, hopen⟩ := h.placed t call r key f hcall hplace
    obtain ⟨flight', hobject', hkey, hsame⟩ := hk.object f flight hobject
    refine ⟨flight', hobject', hkey, hsame ▸ hstate, fun hclosed => ?_⟩
    obtain ⟨hlives, hin⟩ := hopen (hk.closed ▸ hclosed)
    obtain ⟨found, hfound, hmem⟩ := hk.lives f flight r hlives hin (hstays t call r _ f hcall hplace)
    have hsame := hfound.2
    rw [hobject', some.injEq] at hsame
    exact ⟨hsame ▸ hfound, hsame ▸ hmem⟩
  case leading =>
    intro t call r key f flight' hcall hplace hleads hlives
    rcases hk.lived f flight' hlives with hregistered | ⟨flight, hold, -, hsame, -⟩
    · obtain ⟨flight, hobject, -, hstate, -⟩ := h.placed t call r key f hcall hplace
      obtain ⟨found, hfound, -, hsame⟩ := hk.object f flight hobject
      rw [hlives.2, some.injEq] at hfound
      rw [← hfound, hregistered] at hsame
      exact absurd hsame.symm hstate
    · exact hsame.trans (h.leading t call r key f flight hcall hplace hleads hold)
  case oneLeader => exact h.oneLeader
  case oneCall => exact h.oneCall
  case led =>
    intro f flight' hlives hreading
    rcases hk.lived f flight' hlives with hregistered | ⟨flight, hold, hkey, hsame, -⟩
    · rw [hregistered] at hreading
      cases hreading
    · rw [hkey]
      exact h.led f flight hold (hsame ▸ hreading)

/-- A call that ends, unless it leads a flight that is being read. -/
theorem Running.erase (h : Running c calls) (hled : ∀ call r f flight, calls.get? t = some call →
    call.place = some (r, flight.key, f) → call.leads = true → c.Lives f flight → flight.state ≠ .reading) : Running c (calls.erase t) := by
  have hold : ∀ t' call, (calls.erase t).get? t' = some call → calls.get? t' = some call :=
    fun t' call hcall => (Dict.get?_erase_eq_some.mp hcall).2
  constructor
  case placed => exact fun t' call r key f hcall => h.placed t' call r key f (hold t' call hcall)
  case leading => exact fun t' call r key f flight hcall => h.leading t' call r key f flight (hold t' call hcall)
  case oneLeader =>
    exact fun t₁ t₂ call call' r r' key f f' hcall hplace hleads hcall' =>
      h.oneLeader t₁ t₂ call call' r r' key f f' (hold _ _ hcall) hplace hleads (hold _ _ hcall')
  case oneCall =>
    exact fun t₁ t₂ call call' r key key' f f' hcall hplace hcall' =>
      h.oneCall t₁ t₂ call call' r key key' f f' (hold _ _ hcall) hplace (hold _ _ hcall')
  case led =>
    intro f flight hlives hreading
    obtain ⟨t', call, r, hcall, hplace, hleads⟩ := h.led f flight hlives hreading
    refine ⟨t', call, r, Dict.get?_erase_eq_some.mpr ⟨?_, hcall⟩, hplace, hleads⟩
    rintro rfl
    exact hled call r f flight hcall hplace hleads hlives hreading

/-- Calls that go on in their places. -/
theorem Running.map {calls' : Dict ℕ (Call β)} (h : Running c calls)
    (hback : ∀ t call', calls'.get? t = some call' → call'.place ≠ none → ∃ call, calls.get? t = some call ∧ call.place = call'.place ∧
      call.leads = call'.leads)
    (hforth : ∀ t call, calls.get? t = some call → ∃ call', calls'.get? t = some call' ∧ call'.place = call.place ∧
      call'.leads = call.leads) : Running c calls' := by
  have hplaced : ∀ t call' r key f, calls'.get? t = some call' → call'.place = some (r, key, f) →
      ∃ call, calls.get? t = some call ∧ call.place = some (r, key, f) ∧ call.leads = call'.leads := by
    intro t call' r key f hcall hplace
    obtain ⟨call, hold, hsame, hleads⟩ := hback t call' hcall (hplace ▸ nofun)
    exact ⟨call, hold, hsame.trans hplace, hleads⟩
  constructor
  case placed =>
    intro t call' r key f hcall hplace
    obtain ⟨call, hold, hsame, -⟩ := hplaced t call' r key f hcall hplace
    exact h.placed t call r key f hold hsame
  case leading =>
    intro t call' r key f flight hcall hplace hleads
    obtain ⟨call, hold, hsame, hleads'⟩ := hplaced t call' r key f hcall hplace
    exact h.leading t call r key f flight hold hsame (hleads'.trans hleads)
  case oneLeader =>
    intro t₁ t₂ call₁ call₂ r r' key f f' hcall₁ hplace₁ hleads₁ hcall₂ hplace₂ hleads₂
    obtain ⟨old₁, hold₁, hsame₁, hleads₁'⟩ := hplaced t₁ call₁ r key f hcall₁ hplace₁
    obtain ⟨old₂, hold₂, hsame₂, hleads₂'⟩ := hplaced t₂ call₂ r' key f' hcall₂ hplace₂
    exact h.oneLeader t₁ t₂ old₁ old₂ r r' key f f' hold₁ hsame₁ (hleads₁'.trans hleads₁) hold₂ hsame₂ (hleads₂'.trans hleads₂)
  case oneCall =>
    intro t₁ t₂ call₁ call₂ r key key' f f' hcall₁ hplace₁ hcall₂ hplace₂
    obtain ⟨old₁, hold₁, hsame₁, -⟩ := hplaced t₁ call₁ r key f hcall₁ hplace₁
    obtain ⟨old₂, hold₂, hsame₂, -⟩ := hplaced t₂ call₂ r key' f' hcall₂ hplace₂
    exact h.oneCall t₁ t₂ old₁ old₂ r key key' f f' hold₁ hsame₁ hold₂ hsame₂
  case led =>
    intro f flight hlives hreading
    obtain ⟨t, call, r, hcall, hplace, hleads⟩ := h.led f flight hlives hreading
    obtain ⟨call', hnew, hsame, hleads'⟩ := hforth t call hcall
    exact ⟨t, call', r, hnew, hsame.trans hplace, hleads'.trans hleads⟩

theorem get?_notifyAll : (notifyAll calls).get? t = (calls.get? t).map Call.wake := Dict.get?_adjust

section

variable (h : Running c calls)

include h

/-- Followers that wake up. -/
theorem Running.notifyAll : Running c (notifyAll calls) := by
  refine h.map (fun t call' hcall _ => ?_) fun t call hcall => ?_
  · rw [get?_notifyAll] at hcall
    obtain ⟨call, hold, rfl⟩ := Option.map_eq_some_iff.mp hcall
    exact ⟨call, hold, Call.place_wake.symm, Call.leads_wake.symm⟩
  · refine ⟨call.wake, ?_, Call.place_wake, Call.leads_wake⟩
    rw [get?_notifyAll, hcall, Option.map_some]

/-- A call that takes its next section in its place. -/
theorem Running.goesOn (hcall : calls.get? t = some call) (hplace : call'.place = call.place)
    (hleads : call'.leads = call.leads) : Running c (calls.set t call') := by
  refine h.map (fun t' found hfound _ => ?_) fun t' found hfound => ?_
  · rcases get?_set_eq_some.mp hfound with ⟨rfl, rfl⟩ | ⟨-, hold⟩
    · exact ⟨call, hcall, hplace.symm, hleads.symm⟩
    · exact ⟨found, hold, rfl, rfl⟩
  by_cases ht : t' = t
  · subst ht
    rw [hcall, some.injEq] at hfound
    exact ⟨call', get?_set_self, hfound ▸ hplace, hfound ▸ hleads⟩
  · exact ⟨found, (get?_set_of_ne ht).trans hfound, rfl, rfl⟩

/-- A new call of a request without a flight. -/
theorem Running.independent (hnew : calls.get? t = none) : Running c (calls.set t (.independent request)) := by
  refine h.map (fun t' found hfound hplace => ?_) fun t' found hfound => ?_
  · rcases get?_set_eq_some.mp hfound with ⟨rfl, rfl⟩ | ⟨-, hold⟩
    · exact absurd rfl hplace
    · exact ⟨found, hold, rfl, rfl⟩
  refine ⟨found, (get?_set_of_ne ?_).trans hfound, rfl, rfl⟩
  rintro rfl
  rw [hnew] at hfound
  cases hfound

/-- A member that waits for its flight. -/
theorem Running.follows (hnew : calls.get? t = none) (hlives : c.Lives f flight) (hin : request ∈ flight.members)
    (hstate : flight.state ≠ .registered) (hfree : ∀ t call key f, calls.get? t = some call → call.place ≠ some (request, key, f)) :
    Running c (calls.set t (.following request flight.key f false)) := by
  have hcases : ∀ t' call r key f', (calls.set t (.following request flight.key f false)).get? t' = some call →
      call.place = some (r, key, f') → t' = t ∧ call.leads = false ∧ r = request ∧ key = flight.key ∧ f' = f ∨
        t' ≠ t ∧ calls.get? t' = some call := by
    intro t' call r key f' hcall hplace
    rcases get?_set_eq_some.mp hcall with ⟨rfl, rfl⟩ | ⟨hne, hold⟩
    · cases hplace
      exact .inl ⟨rfl, rfl, rfl, rfl, rfl⟩
    · exact .inr ⟨hne, hold⟩
  constructor
  case placed =>
    intro t' call r key f' hcall hplace
    rcases hcases t' call r key f' hcall hplace with ⟨-, -, rfl, rfl, rfl⟩ | ⟨-, hold⟩
    · exact ⟨flight, hlives.2, rfl, hstate, fun _ => ⟨hlives, hin⟩⟩
    · exact h.placed t' call r key f' hold hplace
  case leading =>
    intro t' call r key f' found hcall hplace hleads
    rcases hcases t' call r key f' hcall hplace with ⟨-, hnot, -⟩ | ⟨-, hold⟩
    · rw [hnot] at hleads
      cases hleads
    · exact h.leading t' call r key f' found hold hplace hleads
  case oneLeader =>
    intro t₁ t₂ call₁ call₂ r r' key f₁ f₂ hcall₁ hplace₁ hleads₁ hcall₂ hplace₂ hleads₂
    rcases hcases t₁ call₁ r key f₁ hcall₁ hplace₁ with ⟨-, hnot, -⟩ | ⟨-, hold₁⟩
    · rw [hnot] at hleads₁
      cases hleads₁
    rcases hcases t₂ call₂ r' key f₂ hcall₂ hplace₂ with ⟨-, hnot, -⟩ | ⟨-, hold₂⟩
    · rw [hnot] at hleads₂
      cases hleads₂
    · exact h.oneLeader t₁ t₂ call₁ call₂ r r' key f₁ f₂ hold₁ hplace₁ hleads₁ hold₂ hplace₂ hleads₂
  case oneCall =>
    intro t₁ t₂ call₁ call₂ r key₁ key₂ f₁ f₂ hcall₁ hplace₁ hcall₂ hplace₂
    rcases hcases t₁ call₁ r key₁ f₁ hcall₁ hplace₁ with ⟨rfl, -, rfl, -⟩ | ⟨-, hold₁⟩
    · rcases hcases t₂ call₂ r key₂ f₂ hcall₂ hplace₂ with ⟨rfl, -⟩ | ⟨-, hold₂⟩
      · rfl
      · exact absurd hplace₂ (hfree t₂ call₂ key₂ f₂ hold₂)
    rcases hcases t₂ call₂ r key₂ f₂ hcall₂ hplace₂ with ⟨-, -, rfl, -⟩ | ⟨-, hold₂⟩
    · exact absurd hplace₁ (hfree t₁ call₁ key₁ f₁ hold₁)
    · exact h.oneCall t₁ t₂ call₁ call₂ r key₁ key₂ f₁ f₂ hold₁ hplace₁ hold₂ hplace₂
  case led =>
    intro g found hfound hreading
    obtain ⟨t', call, r, hcall, hplace, hleads⟩ := h.led g found hfound hreading
    refine ⟨t', call, r, (get?_set_of_ne ?_).trans hcall, hplace, hleads⟩
    rintro rfl
    rw [hnew] at hcall
    cases hcall

/-- A member that starts to read for its flight. -/
theorem Running.starts (hregistry : Registry bounds c) (hnew : calls.get? t = none) (hlives : c.Lives f flight)
    (hin : request ∈ flight.members) (hstate : flight.state = .registered) (hkey : changed.key = flight.key)
    (hmembers : changed.members = flight.members) (hreading : changed.state = .reading)
    (hfree : ∀ t call key f, calls.get? t = some call → call.place ≠ some (request, key, f)) :
    Running (c.put f changed) (calls.set t (.reading request flight.key f)) := by
  have hchanged : (c.put f changed).Lives f changed := (lives_put hlives.2 hkey).mpr (.inl ⟨rfl, rfl, hlives⟩)
  have hcases : ∀ t' call r key f', (calls.set t (.reading request flight.key f)).get? t' = some call →
      call.place = some (r, key, f') → t' = t ∧ r = request ∧ key = flight.key ∧ f' = f ∨
        t' ≠ t ∧ calls.get? t' = some call ∧ f' ≠ f := by
    intro t' call r key f' hcall hplace
    rcases get?_set_eq_some.mp hcall with ⟨rfl, rfl⟩ | ⟨hne, hold⟩
    · cases hplace
      exact .inl ⟨rfl, rfl, rfl, rfl⟩
    refine .inr ⟨hne, hold, ?_⟩
    rintro rfl
    -- a call's flight is no longer registered
    obtain ⟨found, hfound, -, hresolved, -⟩ := h.placed t' call r key f' hold hplace
    rw [hlives.2, some.injEq] at hfound
    exact hresolved (hfound ▸ hstate)
  have hapart : ∀ t' call r f', calls.get? t' = some call → call.place = some (r, flight.key, f') → f' = f := by
    intro t' call r f' hcall hplace
    obtain ⟨found, -, hfoundKey, -, hopen⟩ := h.placed t' call r flight.key f' hcall hplace
    exact ((hopen (hregistry.not_closed hlives)).1.unique hlives hfoundKey).1
  constructor
  case placed =>
    intro t' call r key f' hcall hplace
    rcases hcases t' call r key f' hcall hplace with ⟨-, rfl, rfl, rfl⟩ | ⟨-, hold, hne⟩
    · exact ⟨changed, get?_set_self, hkey, hreading ▸ nofun, fun _ => ⟨hchanged, hmembers ▸ hin⟩⟩
    obtain ⟨found, hfound, hfoundKey, hresolved, hopen⟩ := h.placed t' call r key f' hold hplace
    refine ⟨found, (get?_set_of_ne hne).trans hfound, hfoundKey, hresolved, fun hclosed => ?_⟩
    exact ⟨(lives_put hlives.2 hkey).mpr (.inr ⟨hne, (hopen hclosed).1⟩), (hopen hclosed).2⟩
  case leading =>
    intro t' call r key f' found hcall hplace hleads hfound
    rcases (lives_put hlives.2 hkey).mp hfound with ⟨rfl, rfl, -⟩ | ⟨hg, hold⟩
    · exact hreading
    rcases hcases t' call r key f' hcall hplace with ⟨-, -, -, rfl⟩ | ⟨-, hbefore, -⟩
    · exact absurd rfl hg
    · exact h.leading t' call r key f' found hbefore hplace hleads hold
  case oneLeader =>
    intro t₁ t₂ call₁ call₂ r r' key f₁ f₂ hcall₁ hplace₁ hleads₁ hcall₂ hplace₂ hleads₂
    rcases hcases t₁ call₁ r key f₁ hcall₁ hplace₁ with ⟨rfl, -, rfl, rfl⟩ | ⟨-, hold₁, hne₁⟩
    · rcases hcases t₂ call₂ r' _ f₂ hcall₂ hplace₂ with ⟨rfl, -⟩ | ⟨-, hold₂, hne₂⟩
      · rfl
      · exact absurd (hapart t₂ call₂ r' f₂ hold₂ hplace₂) hne₂
    rcases hcases t₂ call₂ r' key f₂ hcall₂ hplace₂ with ⟨-, -, rfl, -⟩ | ⟨-, hold₂, -⟩
    · exact absurd (hapart t₁ call₁ r f₁ hold₁ hplace₁) hne₁
    · exact h.oneLeader t₁ t₂ call₁ call₂ r r' key f₁ f₂ hold₁ hplace₁ hleads₁ hold₂ hplace₂ hleads₂
  case oneCall =>
    intro t₁ t₂ call₁ call₂ r key₁ key₂ f₁ f₂ hcall₁ hplace₁ hcall₂ hplace₂
    rcases hcases t₁ call₁ r key₁ f₁ hcall₁ hplace₁ with ⟨rfl, rfl, -⟩ | ⟨-, hold₁, -⟩
    · rcases hcases t₂ call₂ r key₂ f₂ hcall₂ hplace₂ with ⟨rfl, -⟩ | ⟨-, hold₂, -⟩
      · rfl
      · exact absurd hplace₂ (hfree t₂ call₂ key₂ f₂ hold₂)
    rcases hcases t₂ call₂ r key₂ f₂ hcall₂ hplace₂ with ⟨-, rfl, -⟩ | ⟨-, hold₂, -⟩
    · exact absurd hplace₁ (hfree t₁ call₁ key₁ f₁ hold₁)
    · exact h.oneCall t₁ t₂ call₁ call₂ r key₁ key₂ f₁ f₂ hold₁ hplace₁ hold₂ hplace₂
  case led =>
    intro g found hfound hthen
    rcases (lives_put hlives.2 hkey).mp hfound with ⟨rfl, rfl, -⟩ | ⟨hg, hold⟩
    · exact ⟨t, _, request, get?_set_self, hkey ▸ rfl, rfl⟩
    obtain ⟨t', call, r, hcall, hplace, hleads⟩ := h.led g found hold hthen
    refine ⟨t', call, r, (get?_set_of_ne ?_).trans hcall, hplace, hleads⟩
    rintro rfl
    rw [hnew] at hcall
    cases hcall

/-- A leader that publishes what its reader came to. -/
theorem Running.publishes (hcall : calls.get? t = some call) (hplace : call.place = some (request, flight.key, f))
    (hleads : call.leads = true) (hlives : c.Lives f flight) (hkey : changed.key = flight.key)
    (hmembers : changed.members = flight.members) (hread : changed.state ≠ .reading) (hresolved : changed.state ≠ .registered) :
    Running (c.put f changed) (calls.erase t) := by
  have hold : ∀ t' call, (calls.erase t).get? t' = some call → t' ≠ t ∧ calls.get? t' = some call :=
    fun t' call hcall => Dict.get?_erase_eq_some.mp hcall
  constructor
  case placed =>
    intro t' found r key g hfound hfoundPlace
    obtain ⟨other, hobject, hotherKey, hotherState, hopen⟩ := h.placed t' found r key g (hold t' found hfound).2 hfoundPlace
    by_cases hg : g = f
    · subst hg
      rw [hlives.2, some.injEq] at hobject
      subst hobject
      refine ⟨changed, get?_set_self, hkey.trans hotherKey, hresolved, fun hclosed => ?_⟩
      exact ⟨(lives_put hlives.2 hkey).mpr (.inl ⟨rfl, rfl, hlives⟩), hmembers ▸ (hopen hclosed).2⟩
    · refine ⟨other, (get?_set_of_ne hg).trans hobject, hotherKey, hotherState, fun hclosed => ?_⟩
      exact ⟨(lives_put hlives.2 hkey).mpr (.inr ⟨hg, (hopen hclosed).1⟩), (hopen hclosed).2⟩
  case leading =>
    intro t' found r key g other hfound hfoundPlace hfoundLeads hother
    obtain ⟨hne, hbefore⟩ := hold t' found hfound
    rcases (lives_put hlives.2 hkey).mp hother with ⟨rfl, -, -⟩ | ⟨-, hsame⟩
    · obtain ⟨same, hobject, hsameKey, -⟩ := h.placed t' found r key g hbefore hfoundPlace
      rw [hlives.2, some.injEq] at hobject
      subst hobject
      rw [← hsameKey] at hfoundPlace
      exact absurd (h.oneLeader t' t found call r request _ g g hbefore hfoundPlace hfoundLeads hcall hplace hleads) hne
    · exact h.leading t' found r key g other hbefore hfoundPlace hfoundLeads hsame
  case oneLeader =>
    exact fun t₁ t₂ call call' r r' key f f' hcall hplace hleads hcall' =>
      h.oneLeader t₁ t₂ call call' r r' key f f' (hold _ _ hcall).2 hplace hleads (hold _ _ hcall').2
  case oneCall =>
    exact fun t₁ t₂ call call' r key key' f f' hcall hplace hcall' =>
      h.oneCall t₁ t₂ call call' r key key' f f' (hold _ _ hcall).2 hplace (hold _ _ hcall').2
  case led =>
    intro g other hother hreading
    rcases (lives_put hlives.2 hkey).mp hother with ⟨-, rfl, -⟩ | ⟨hg, hsame⟩
    · exact absurd hreading hread
    obtain ⟨t', found, r, hfound, hfoundPlace, hfoundLeads⟩ := h.led g other hsame hreading
    refine ⟨t', found, r, Dict.get?_erase_eq_some.mpr ⟨?_, hfound⟩, hfoundPlace, hfoundLeads⟩
    rintro rfl
    rw [hcall, some.injEq] at hfound
    rw [← hfound, hplace, some.injEq, Prod.mk.injEq, Prod.mk.injEq] at hfoundPlace
    exact hg hfoundPlace.2.2.symm

end

end SparkRing.PageBase
