import SparkRing.FlightCalls

/-!
# What readers left behind

Each flight is read at most once. Its base is retained from the moment it is
published until the flight is released, it is what the reader returned, and it has the
declared size. A call that returned a base returned that one.
-/

namespace SparkRing.PageBase

open OrderedDict
open Option (some.injEq)

variable {β : Type} {bounds : FlightBounds} {c c' : Coordinator β} {calls calls' : Dict ℕ (Call β)} {call call' : Call β} {t f : ℕ}
  {flight changed : Flight β} {request : String} {key : PageBaseReadFlightKey} {stays : String → Prop} {readable : Readable β}
  {value : BaseValue β} {reads : List (ℕ × Readable β)} {one : Resolved β} {message : String} {declared : Option ℤ}

theorem encodedBytes_of_measured {found : BaseValue β} (h : found.measured declared = .ok value) : some value.encodedBytes = declared := by
  unfold BaseValue.measured at h
  split at h
  next hsize =>
    cases h
    exact hsize
  next => cases h

/-- A base that a reader returned has the declared size. -/
theorem encodedBytes_of_accept (h : readable.accept declared = .ok value) : some value.encodedBytes = declared := by
  cases readable with
  | bytes => exact encodedBytes_of_measured h
  | result found encodedBytes =>
    cases encodedBytes with
    | none => cases h
    | some =>
      rw [Readable.accept] at h
      split at h
      · cases h
      · exact encodedBytes_of_measured h
  | other | raises | interrupts => cases h

/-- A follower sleeps while its flight is being read and it is not cancelled. -/
def Sleeping (c : Coordinator β) (calls : Dict ℕ (Call β)) : Prop :=
  ∀ t request key f, calls.get? t = some (.following request key f true) →
    c.closed = false ∧ ∃ flight, c.objects.get? f = some flight ∧ flight.state = .reading ∧ request ∉ flight.cancelled

/-- A section that cancels nobody. -/
def Uncancelled (c c' : Coordinator β) : Prop :=
  ∀ f flight flight', c.objects.get? f = some flight → c'.objects.get? f = some flight' →
    ∀ request ∈ flight'.cancelled, request ∈ flight.cancelled

theorem uncancelled_set (hobjects : c'.objects = c.objects.set f changed)
    (h : ∀ flight, c.objects.get? f = some flight → ∀ request ∈ changed.cancelled, request ∈ flight.cancelled) : Uncancelled c c' := by
  intro g found found' hobject hthen
  rw [hobjects] at hthen
  rcases Dict.get?_set_eq_some.mp hthen with ⟨rfl, rfl⟩ | ⟨-, hold⟩
  · exact h found hobject
  · rw [hobject, some.injEq] at hold
    exact hold ▸ fun _ => id

theorem Uncancelled.of_finishes (hf : Finishes c request c') : Uncancelled c c' := by
  cases hf with
  | absent =>
    intro f found found' hobject hthen
    rw [hobject, some.injEq] at hthen
    exact hthen ▸ fun _ => id
  | leaves hlives hmem hrest | releases hlives hmem hrest =>
    refine uncancelled_set rfl fun found hfound other hother => ?_
    rw [hlives.2, some.injEq] at hfound
    exact hfound ▸ (Finset.mem_erase.mp hother).2

theorem Uncancelled.of_joins (h : Registry bounds c) (hj : Joins bounds c c') : Uncancelled c c' := by
  cases hj with
  | nothing =>
    intro f found found' hobject hthen
    rw [hobject, some.injEq] at hthen
    exact hthen ▸ fun _ => id
  | joined hopen hstate hflight henrolled hselected designated =>
    refine uncancelled_set rfl fun found hfound other hother => ?_
    obtain ⟨-, rfl⟩ := hflight.number h hfound
    obtain ⟨-, -, -, hcancelled⟩ := henrolled.unchanged
    exact hcancelled ▸ hother

section

variable (h : Sleeping c calls)

include h

theorem Sleeping.keeps (hk : Keeps c c' stays) (hu : Uncancelled c c') : Sleeping c' calls := by
  intro t request key f hcall
  obtain ⟨hclosed, flight, hobject, hreading, hnot⟩ := h t request key f hcall
  obtain ⟨flight', hobject', -, hstate⟩ := hk.object f flight hobject
  exact ⟨hk.closed.trans hclosed, flight', hobject', hstate.trans hreading, fun hin => hnot (hu f flight flight' hobject hobject' request hin)⟩

/-- A flight that nobody sleeps on may change. -/
theorem Sleeping.put (hobject : c.objects.get? f = some flight) (hstate : flight.state ≠ .reading) : Sleeping (c.put f changed) calls := by
  intro t request key g hcall
  obtain ⟨hclosed, found, hfound, hreading, hnot⟩ := h t request key g hcall
  refine ⟨hclosed, found, (Dict.get?_set_of_ne ?_).trans hfound, hreading, hnot⟩
  rintro rfl
  rw [hobject, some.injEq] at hfound
  exact hstate (hfound ▸ hreading)

/-- A call that does not fall asleep. -/
theorem Sleeping.set (hcall : ∀ request key f, call ≠ .following request key f true) : Sleeping c (calls.set t call) := by
  intro t' request key f hfound
  rcases Dict.get?_set_eq_some.mp hfound with ⟨-, rfl⟩ | ⟨-, hold⟩
  · exact absurd rfl (hcall request key f)
  · exact h t' request key f hold

theorem Sleeping.falls (hopen : c.closed = false) (hobject : c.objects.get? f = some flight)
    (hreading : flight.state = .reading) (hnot : request ∉ flight.cancelled) :
    Sleeping c (calls.set t (.following request key f true)) := by
  intro t' other key' g hfound
  rcases Dict.get?_set_eq_some.mp hfound with ⟨-, hsame⟩ | ⟨-, hold⟩
  · cases hsame
    exact ⟨hopen, flight, hobject, hreading, hnot⟩
  · exact h t' other key' g hold

theorem Sleeping.erase : Sleeping c (calls.erase t) :=
  fun t' request key f hfound => h t' request key f (Dict.get?_erase_eq_some.mp hfound).2

end

theorem Sleeping.notifyAll (c : Coordinator β) (calls : Dict ℕ (Call β)) : Sleeping c (notifyAll calls) := by
  intro t request key f hcall
  rw [get?_notifyAll] at hcall
  obtain ⟨call, -, hwake⟩ := Option.map_eq_some_iff.mp hcall
  cases call <;> cases hwake

/-- A call that ended returned what the only reader of its flight returned. -/
def Right (c : Coordinator β) (reads : List (ℕ × Readable β)) (one : Resolved β) : Prop :=
  one.outcome ≠ .releasedBeforeUse ∧ ∀ value, one.outcome = .returned value →
    ∃ f flight readable, one.flight = some f ∧ c.objects.get? f = some flight ∧ flight.key = one.key ∧ (f, readable) ∈ reads ∧
      readable.accept one.key.evidence.baseEncodedBytes = .ok value

/-- What holds of the reads so far and of the bases they left. -/
structure Results (c : Coordinator β) (calls : Dict ℕ (Call β)) (reads : List (ℕ × Readable β)) : Prop where
  /-- A flight is read at most once. -/
  once : (reads.map Prod.fst).Nodup
  /-- Only flights are read. -/
  known : ∀ f readable, (f, readable) ∈ reads → f < c.nextId
  unread : ∀ f flight readable, c.objects.get? f = some flight → flight.state = .registered → (f, readable) ∉ reads
  /-- While a reader runs its flight was not read. -/
  reading : ∀ t request key f readable, calls.get? t = some (.reading request key f) → (f, readable) ∉ reads
  /-- What a leader publishes was read. -/
  read : ∀ t request key f readable, calls.get? t = some (.read request key f readable) → (f, readable) ∈ reads
  /-- A retained base was read, and its flight is ready. -/
  result : ∀ f flight value, c.objects.get? f = some flight → flight.result = some value →
    flight.state = .ready ∧ ∃ readable, (f, readable) ∈ reads ∧ readable.accept flight.key.evidence.baseEncodedBytes = .ok value
  ready : ∀ f flight, c.Lives f flight → flight.state = .ready → flight.result ≠ none
  /-- A flight that was read well is ready, or its leader is about to publish it. -/
  published : ∀ f flight readable value, c.Lives f flight → (f, readable) ∈ reads →
    readable.accept flight.key.evidence.baseEncodedBytes = .ok value →
    flight.state = .ready ∨ ∃ t request, calls.get? t = some (.read request flight.key f readable)

/-- What a flight was read as is one thing. -/
theorem Results.unique (h : Results c calls reads) {again : Readable β} (hread : (f, readable) ∈ reads) (hagain : (f, again) ∈ reads) :
    readable = again := by
  have hsame := List.inj_on_of_nodup_map h.once hread hagain rfl
  exact (Prod.mk.inj hsame).2

/-- A section that keeps all flights in their states keeps what was read. -/
theorem Results.keeps (h : Results c calls reads) (hk : Keeps c c' stays) : Results c' calls reads := by
  have hunread : ∀ f flight' readable, c'.objects.get? f = some flight' → flight'.state = .registered → (f, readable) ∉ reads := by
    intro f flight' readable hobject hstate hread
    rcases hk.made f flight' hobject with ⟨hnew, -⟩ | ⟨flight, hold, -⟩
    · exact absurd (h.known f readable hread) (Nat.not_lt.mpr hnew)
    obtain ⟨found, hfound, -, hsame⟩ := hk.object f flight hold
    rw [hobject, some.injEq] at hfound
    rw [← hfound, hstate] at hsame
    exact h.unread f flight readable hold hsame.symm hread
  constructor
  case once => exact h.once
  case known => exact fun f readable hread => (h.known f readable hread).trans_le hk.nextId
  case unread => exact hunread
  case reading => exact h.reading
  case read => exact h.read
  case result =>
    intro f flight' value hobject hvalue
    rcases hk.made f flight' hobject with ⟨-, hnone⟩ | ⟨flight, hold, hsame⟩
    · rw [hnone] at hvalue
      cases hvalue
    obtain ⟨found, hfound, hkey, hstate⟩ := hk.object f flight hold
    rw [hobject, some.injEq] at hfound
    subst hfound
    rw [hkey, hstate]
    exact h.result f flight value hold (hsame value hvalue)
  case ready =>
    intro f flight' hlives hready
    rcases hk.lived f flight' hlives with hregistered | ⟨flight, hold, -, hstate, hresult⟩
    · rw [hregistered] at hready
      cases hready
    · rw [hresult]
      exact h.ready f flight hold (hstate ▸ hready)
  case published =>
    intro f flight' readable value hlives hread haccept
    rcases hk.lived f flight' hlives with hregistered | ⟨flight, hold, hkey, hstate, -⟩
    · exact absurd hread (hunread f flight' readable hlives.2 hregistered)
    · rw [hkey, hstate]
      exact h.published f flight readable value hold hread (hkey ▸ haccept)

theorem Right.keeps (h : Right c reads one) (hk : Keeps c c' stays) : Right c' reads one := by
  refine ⟨h.1, fun value hvalue => ?_⟩
  obtain ⟨f, flight, readable, hf, hobject, hkey, hread⟩ := h.2 value hvalue
  obtain ⟨flight', hobject', hsame, -⟩ := hk.object f flight hobject
  exact ⟨f, flight', readable, hf, hobject', hsame.trans hkey, hread⟩

section

variable (h : Results c calls reads)

include h

/-- Calls that read and publish what they did. -/
theorem Results.of_calls (hreading : ∀ t request key f, calls'.get? t = some (.reading request key f) → ∀ readable, (f, readable) ∉ reads)
    (hread : ∀ t request key f readable, calls'.get? t = some (.read request key f readable) → (f, readable) ∈ reads)
    (hpublished : ∀ t request key f readable, calls.get? t = some (.read request key f readable) →
      calls'.get? t = some (.read request key f readable) ∨ ∀ flight value, c.Lives f flight → flight.key = key →
        readable.accept key.evidence.baseEncodedBytes = .ok value → flight.state = .ready) : Results c calls' reads := { h with
  reading := fun t request key f readable hcall => hreading t request key f hcall readable
  read := hread
  published := by
    intro f flight readable value hlives hin haccept
    rcases h.published f flight readable value hlives hin haccept with hready | ⟨t, request, hcall⟩
    · exact .inl hready
    rcases hpublished t request flight.key f readable hcall with hthen | hready
    · exact .inr ⟨t, request, hthen⟩
    · exact .inl (hready flight value hlives rfl haccept) }

theorem Results.notifyAll : Results c (notifyAll calls) reads := by
  have hwake : ∀ t call', (PageBase.notifyAll calls).get? t = some call' → ∃ call, calls.get? t = some call ∧ call.wake = call' := by
    intro t call' hcall
    rw [get?_notifyAll] at hcall
    exact Option.map_eq_some_iff.mp hcall
  refine h.of_calls (fun t request key f hcall readable => ?_) (fun t request key f readable hcall => ?_)
    fun t request key f readable hcall => ?_
  · obtain ⟨call, hold, hsame⟩ := hwake t _ hcall
    cases call <;> cases hsame
    exact h.reading t request key f readable hold
  · obtain ⟨call, hold, hsame⟩ := hwake t _ hcall
    cases call <;> cases hsame
    exact h.read t request key f readable hold
  left
  rw [get?_notifyAll, hcall]
  rfl

/-- A call that ends has published, or its flight does not live. -/
theorem Results.erase (hpublished : ∀ request key f readable, calls.get? t = some (.read request key f readable) →
    ∀ flight value, c.Lives f flight → flight.key = key → readable.accept key.evidence.baseEncodedBytes = .ok value →
      flight.state = .ready) : Results c (calls.erase t) reads := by
  refine h.of_calls (fun t' request key f hcall readable => ?_) (fun t' request key f readable hcall => ?_)
    fun t' request key f readable hcall => ?_
  · exact h.reading t' request key f readable (Dict.get?_erase_eq_some.mp hcall).2
  · exact h.read t' request key f readable (Dict.get?_erase_eq_some.mp hcall).2
  by_cases ht : t' = t
  · subst ht
    exact .inr (hpublished request key f readable hcall)
  · exact .inl (Dict.get?_erase_eq_some.mpr ⟨ht, hcall⟩)

/-- A new call, or one that goes on, that does not publish. -/
theorem Results.set (hnone : ∀ request key f readable, calls.get? t ≠ some (.read request key f readable))
    (hreading : ∀ request key f, call = .reading request key f → ∀ readable, (f, readable) ∉ reads)
    (hread : ∀ request key f readable, call ≠ .read request key f readable) : Results c (calls.set t call) reads := by
  refine h.of_calls (fun t' request key f hcall readable => ?_) (fun t' request key f readable hcall => ?_)
    fun t' request key f readable hcall => ?_
  · rcases Dict.get?_set_eq_some.mp hcall with ⟨-, hsame⟩ | ⟨-, hold⟩
    · exact hreading request key f hsame.symm readable
    · exact h.reading t' request key f readable hold
  · rcases Dict.get?_set_eq_some.mp hcall with ⟨-, hsame⟩ | ⟨-, hold⟩
    · exact absurd hsame.symm (hread request key f readable)
    · exact h.read t' request key f readable hold
  left
  refine (Dict.get?_set_of_ne ?_).trans hcall
  rintro rfl
  exact hnone request key f readable hcall

/-- A flight goes on: to being read, or to what its reader came to. -/
theorem Results.put (hobject : c.objects.get? f = some flight) (hkey : changed.key = flight.key)
    (hresolved : changed.state ≠ .registered) (hresult : ∀ value, changed.result = some value → changed.state = .ready ∧
      ∃ readable, (f, readable) ∈ reads ∧ readable.accept flight.key.evidence.baseEncodedBytes = .ok value)
    (hready : changed.state = .ready → changed.result ≠ none)
    (hpublished : ∀ readable value, (f, readable) ∈ reads → readable.accept flight.key.evidence.baseEncodedBytes = .ok value →
      changed.state = .ready) : Results (c.put f changed) calls reads := { h with
  unread := by
    intro g found readable hfound hstate
    rcases Dict.get?_set_eq_some.mp hfound with ⟨-, rfl⟩ | ⟨-, hold⟩
    · exact absurd hstate hresolved
    · exact h.unread g found readable hold hstate
  result := by
    intro g found value hfound hvalue
    rcases Dict.get?_set_eq_some.mp hfound with ⟨rfl, rfl⟩ | ⟨-, hold⟩
    · rw [hkey]
      exact hresult value hvalue
    · exact h.result g found value hold hvalue
  ready := by
    intro g found hlives hstate
    rcases (lives_put hobject hkey).mp hlives with ⟨-, rfl, -⟩ | ⟨-, hold⟩
    · exact hready hstate
    · exact h.ready g found hold hstate
  published := by
    intro g found readable value hlives hread haccept
    rcases (lives_put hobject hkey).mp hlives with ⟨rfl, rfl, -⟩ | ⟨-, hold⟩
    · exact .inl (hpublished readable value hread (hkey ▸ haccept))
    · exact h.published g found readable value hold hread haccept }

/-- A leader's reader returns or raises. -/
theorem Results.readerEnds (hregistry : Registry bounds c) (hrunning : Running c calls)
    (hcall : calls.get? t = some (.reading request key f)) : Results c (calls.set t (.read request key f readable)) ((f, readable) :: reads) := by
  obtain ⟨flight, hobject, hkey, hstate, -⟩ := hrunning.placed t _ request key f hcall rfl
  have hnew : f ∉ reads.map Prod.fst := fun hmem => by
    obtain ⟨⟨g, again⟩, hin, rfl⟩ := List.mem_map.mp hmem
    exact h.reading t request key g again hcall hin
  constructor
  case once => exact List.nodup_cons.mpr ⟨hnew, h.once⟩
  case known =>
    intro g again hin
    rcases List.mem_cons.mp hin with hsame | hin
    · cases hsame
      exact hregistry.numbered f flight hobject
    · exact h.known g again hin
  case unread =>
    intro g found again hfound hregistered hin
    rcases List.mem_cons.mp hin with hsame | hin
    · cases hsame
      rw [hobject, some.injEq] at hfound
      exact hstate (hfound ▸ hregistered)
    · exact h.unread g found again hfound hregistered hin
  case reading =>
    intro t' r key' g again hfound hin
    rcases Dict.get?_set_eq_some.mp hfound with ⟨-, hsame⟩ | ⟨hne, hold⟩
    · cases hsame
    rcases List.mem_cons.mp hin with hsame | hin
    · cases hsame
      obtain ⟨other, hother, hotherKey, -⟩ := hrunning.placed t' _ r key' f hold rfl
      rw [hobject, some.injEq] at hother
      rw [← hother, hkey] at hotherKey
      subst hotherKey
      exact hne (hrunning.oneLeader t' t _ _ r request key f f hold rfl rfl hcall rfl rfl)
    · exact h.reading t' r key' g again hold hin
  case read =>
    intro t' r key' g again hfound
    rcases Dict.get?_set_eq_some.mp hfound with ⟨-, hsame⟩ | ⟨-, hold⟩
    · cases hsame
      exact List.mem_cons_self
    · exact List.mem_cons_of_mem _ (h.read t' r key' g again hold)
  case result =>
    intro g found value hfound hvalue
    obtain ⟨hready, again, hin, haccept⟩ := h.result g found value hfound hvalue
    exact ⟨hready, again, List.mem_cons_of_mem _ hin, haccept⟩
  case ready => exact h.ready
  case published =>
    intro g found again value hlives hin haccept
    rcases List.mem_cons.mp hin with hsame | hin
    · cases hsame
      have hfound := hlives.2
      rw [hobject, some.injEq] at hfound
      refine .inr ⟨t, request, ?_⟩
      rw [← hfound, hkey]
      exact Dict.get?_set_self
    rcases h.published g found again value hlives hin haccept with hready | ⟨t', r, hfound⟩
    · exact .inl hready
    refine .inr ⟨t', r, (Dict.get?_set_of_ne ?_).trans hfound⟩
    rintro rfl
    rw [hcall] at hfound
    cases hfound

end

theorem Right.cons (h : Right c reads one) (read : ℕ × Readable β) : Right c (read :: reads) one := by
  refine ⟨h.1, fun value hvalue => ?_⟩
  obtain ⟨f, flight, readable, hf, hobject, hkey, hin, haccept⟩ := h.2 value hvalue
  exact ⟨f, flight, readable, hf, hobject, hkey, List.mem_cons_of_mem _ hin, haccept⟩

theorem Right.put (h : Right c reads one) (hobject : c.objects.get? f = some flight) (hkey : changed.key = flight.key) :
    Right (c.put f changed) reads one := by
  refine ⟨h.1, fun value hvalue => ?_⟩
  obtain ⟨g, found, readable, hg, hfound, hsame, hin⟩ := h.2 value hvalue
  by_cases hgf : g = f
  · subst hgf
    rw [hobject, some.injEq] at hfound
    exact ⟨g, changed, readable, hg, Dict.get?_set_self, hkey.trans (hfound ▸ hsame), hin⟩
  · exact ⟨g, found, readable, hg, (Dict.get?_set_of_ne hgf).trans hfound, hsame, hin⟩

end SparkRing.PageBase
