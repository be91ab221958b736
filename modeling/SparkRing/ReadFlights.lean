import Mathlib.Data.Finset.Card
import SparkRing.OrderedDict
import SparkRing.TransitionSystem

/-!
# Shared reads of a page base

Requests of a cohort register for one base. The first of them that resolves it reads
it for all, outside the lock, and the others wait for its result or its error. The
result is retained until every member has acquired or abandoned it. Operations of
several threads interleave between the sections under the lock.
-/

namespace SparkRing.PageBase

open OrderedDict

/-- Authenticated metadata that makes one base snapshot shareable. -/
structure PageBaseReadEvidence where
  /-- The identity of the cache entry. -/
  identityStorageKey : String
  baseContextDigest : String
  baseRootSha256 : String
  baseRootKind : String
  /-- The layout of the pages. -/
  layoutSha256 : String
  /-- The blocks of each group. -/
  baseBlockCounts : List ℤ
  baseBoundaryTokens : ℤ
  /-- The bytes of the base, none where this is no integer. -/
  baseEncodedBytes : Option ℤ
  deriving DecidableEq

/-- Process-local ownership plus authenticated persistent-base evidence. -/
structure PageBaseReadFlightKey where
  workerGeneration : String
  /-- How the base is stored. -/
  storageMode : String
  evidence : PageBaseReadEvidence
  deriving DecidableEq

def PageBaseReadFlightKey.declared (key : PageBaseReadFlightKey) : ℕ := (key.evidence.baseEncodedBytes.getD 0).toNat

/-- The bounds of the coordinator. -/
structure FlightBounds where
  /-- The most flights at a time. -/
  maxFlights : ℕ
  /-- The most participants of a flight. -/
  maxMembers : ℕ
  maxBytesPerFlight : ℕ
  /-- The most bytes of all flights. -/
  maxBytesTotal : ℕ
  /-- Every bound is positive, and some flight is shared. -/
  positive : 0 < maxFlights ∧ 1 < maxMembers ∧ 0 < maxBytesPerFlight ∧ maxBytesPerFlight ≤ maxBytesTotal

/-- What a reader does. -/
inductive Readable (β : Type)
  | bytes (content : List UInt8)
  /-- It returns an authenticated result with its byte charge, none where this is no integer. -/
  | result (value : β) (encodedBytes : Option ℤ)
  /-- It returns something else. -/
  | other
  /-- It raises an `Exception`. -/
  | raises (kind message : String)
  /-- It raises something that is no `Exception`. -/
  | interrupts
  deriving DecidableEq

/-- A base that was read. -/
inductive BaseValue (β : Type)
  | bytes (content : List UInt8)
  /-- An authenticated result with its byte charge. -/
  | result (value : β) (encodedBytes : ℤ)
  deriving DecidableEq

variable {β : Type}

/-- The bytes of a base that was read. -/
def BaseValue.encodedBytes : BaseValue β → ℤ
  | .bytes content => content.length
  | .result _ encodedBytes => encodedBytes

/-- A base of the declared size. -/
def BaseValue.measured (declared : Option ℤ) (value : BaseValue β) : Except String (BaseValue β) :=
  if some value.encodedBytes = declared then .ok value
  else .error "PageBaseReadError: page-base reader length differs from authenticated geometry"

/-- The base that a reader returned, or its error. -/
def Readable.accept (declared : Option ℤ) : Readable β → Except String (BaseValue β)
  | .bytes content => (BaseValue.bytes content).measured declared
  | .result value (some encodedBytes) =>
    if encodedBytes ≤ 0 then .error "TypeError: page-base reader result has an invalid byte charge"
    else (BaseValue.result value encodedBytes).measured declared
  | .result _ none => .error "TypeError: page-base reader result has an invalid byte charge"
  | .other => .error "TypeError: page-base reader must return bytes or an authenticated result"
  | .raises kind message => .error s!"{kind}: {message}"
  | .interrupts => .error ""

/-- How far a flight went. -/
inductive FlightState
  /-- No member resolved it. -/
  | registered
  /-- The leader's reader runs. -/
  | reading
  /-- The base is retained. -/
  | ready
  /-- The reader failed. -/
  | error
  /-- The coordinator was closed. -/
  | closed
  deriving DecidableEq

/-- One base for a cohort of requests. -/
structure Flight (β : Type) where
  key : PageBaseReadFlightKey
  /-- The requests that did not leave. -/
  members : Finset String := ∅
  /-- How far the flight went. -/
  state : FlightState := .registered
  /-- The member whose reader was chosen. -/
  leaderRequestId : Option String := none
  /-- The member that is queued as reader. -/
  designatedLeaderRequestId : Option String := none
  /-- The base that was read. -/
  result : Option (BaseValue β) := none
  /-- The error of the reader. -/
  error : Option String := none
  /-- The members that were cancelled. -/
  cancelled : Finset String := ∅
  /-- The requests that ever registered. -/
  participantCount : ℕ := 0

/-- A running `resolve` between its sections under the lock. -/
inductive Call (β : Type)
  /-- The reader of a request without a flight runs. -/
  | independent (request : String)
  /-- The leader's reader runs. -/
  | reading (request : String) (key : PageBaseReadFlightKey) (flight : ℕ)
  /-- The leader's reader returned or raised. -/
  | read (request : String) (key : PageBaseReadFlightKey) (flight : ℕ) (readable : Readable β)
  /-- A follower is about to look at its flight, or asleep until it is notified. -/
  | following (request : String) (key : PageBaseReadFlightKey) (flight : ℕ) (asleep : Bool)

/-- How a `resolve` ends. -/
inductive Outcome (β : Type)
  | returned (value : BaseValue β)
  | returnedNone
  /-- It ends as the reader of a request without a flight does. -/
  | independent (readable : Readable β)
  /-- `PageBaseReadCancelled`. -/
  | cancelled (message : String)
  /-- `PageBaseReadError`. -/
  | readError (message : String)
  /-- `PageBaseReadError("page-base result was released before use")`. -/
  | releasedBeforeUse
  /-- Something that is no `Exception` leaves it. -/
  | interrupted
  deriving DecidableEq

/-- A `resolve` that ended. -/
structure Resolved (β : Type) where
  request : String
  key : PageBaseReadFlightKey
  /-- The flight whose member the request was, if it was one. -/
  flight : Option ℕ
  /-- How it ended. -/
  outcome : Outcome β

/-- The state of the coordinator. -/
structure Coordinator (β : Type) where
  closed : Bool := false
  flights : Dict PageBaseReadFlightKey ℕ := Dict.empty
  /-- All flights ever made, by number. -/
  objects : Dict ℕ (Flight β) := Dict.empty
  /-- The number of the next flight. -/
  nextId : ℕ := 0
  requests : Dict String PageBaseReadFlightKey := Dict.empty

/-- A flight changes. -/
def Coordinator.put (c : Coordinator β) (f : ℕ) (flight : Flight β) : Coordinator β := { c with objects := c.objects.set f flight }

/-- A request leaves its flight, and the last one releases it. -/
def Coordinator.finishLocked (c : Coordinator β) (request : String) : Coordinator β :=
  match c.requests.get? request with
  | none => c
  | some key =>
    let c := { c with requests := c.requests.erase request }
    match c.flights.get? key with
    | none => c
    | some f =>
      match c.objects.get? f with
      | none => c
      | some flight =>
        let flight := { flight with members := flight.members.erase request, cancelled := flight.cancelled.erase request }
        if flight.members.Nonempty then c.put f flight
        else { c.put f { flight with result := none, error := none } with flights := c.flights.erase key }

/-- What a registration answers. -/
structure PageBaseCohortRegistration where
  /-- The accepted requests. -/
  memberIds : List String := []
  /-- The request that is queued as reader. -/
  leaderRequestId : Option String := none
  /-- The state of the flight, none where there is none. -/
  flightState : Option FlightState := none

/-- Add the requests that are not registered to a flight, while it has room. -/
def enroll (maxMembers : ℕ) (key : PageBaseReadFlightKey) :
    List String → Flight β → Dict String PageBaseReadFlightKey → Flight β × Dict String PageBaseReadFlightKey × List String
  | [], flight, requests => (flight, requests, [])
  | request :: rest, flight, requests =>
    if request ∈ requests.keys then enroll maxMembers key rest flight requests
    else if maxMembers ≤ flight.participantCount then enroll maxMembers key rest flight requests
    else
      let flight := { flight with members := insert request flight.members, participantCount := flight.participantCount + 1 }
      let enrolled := enroll maxMembers key rest flight (requests.set request key)
      (enrolled.1, enrolled.2.1, request :: enrolled.2.2)

/-- Register requests with a flight, which is listed when one of them is accepted. -/
def Coordinator.join (bounds : FlightBounds) (c : Coordinator β) (key : PageBaseReadFlightKey) (f : ℕ) (flight : Flight β)
    (ordered : List String) : Coordinator β × PageBaseCohortRegistration :=
  let enrolled := enroll bounds.maxMembers key ordered flight c.requests
  let flight := enrolled.1
  if enrolled.2.2 = [] then (c, {})
  else
    let designated := match flight.designatedLeaderRequestId with
      | some request => some request
      | none => ordered.find? fun request => decide (request ∈ flight.members)
    ({ c.put f { flight with designatedLeaderRequestId := designated } with
        flights := c.flights.set key f
        nextId := max c.nextId (f + 1)
        requests := enrolled.2.1 },
      ⟨enrolled.2.2, designated, some flight.state⟩)

/-- Create a provisional reader flight or join a retained cohort. -/
def Coordinator.registerCohort (bounds : FlightBounds) (c : Coordinator β) (key : PageBaseReadFlightKey) (requestIds : List String) :
    Coordinator β × PageBaseCohortRegistration :=
  let ordered := requestIds.eraseDups
  if ordered = [] ∨ "" ∈ ordered then (c, {})
  else if c.closed then (c, {})
  else
    match c.flights.get? key with
    | some f =>
      match c.objects.get? f with
      | none => (c, {})
      | some flight => if flight.state = .error then (c, {}) else c.join bounds key f flight ordered
    | none =>
      match key.evidence.baseEncodedBytes with
      | none => (c, {})
      | some declaredBytes =>
        if declaredBytes ≤ 0 then (c, {})
        else if (bounds.maxBytesPerFlight : ℤ) < declaredBytes then (c, {})
        else if bounds.maxBytesTotal < (c.flights.keys.map fun other => 2 * other.declared).sum + 2 * key.declared then (c, {})
        else if bounds.maxFlights ≤ c.flights.size then (c, {})
        else c.join bounds key c.nextId { key := key } ordered

/-- The flight that a request is a member of, where it is registered for this base. -/
def Coordinator.membership (c : Coordinator β) (request : String) (key : PageBaseReadFlightKey) : Option (ℕ × Flight β) :=
  if c.requests.get? request = some key then
    match c.flights.get? key with
    | none => none
    | some f =>
      match c.objects.get? f with
      | none => none
      | some flight => if request ∈ flight.members then some (f, flight) else none
  else none

/-- The coordinator, the calls that run and what happened so far. -/
structure State (β : Type) where
  coordinator : Coordinator β := {}
  /-- The running calls, by thread. -/
  calls : Dict ℕ (Call β) := Dict.empty
  /-- What the readers of flights did, the latest first. -/
  reads : List (ℕ × Readable β) := []
  /-- The calls that ended, the latest first. -/
  resolved : List (Resolved β) := []

/-- Followers wake up. -/
def Call.wake : Call β → Call β
  | .following request key f _ => .following request key f false
  | call => call

/-- Every follower wakes up. -/
def notifyAll (calls : Dict ℕ (Call β)) : Dict ℕ (Call β) := calls.adjust fun _ => Call.wake

/-- A call runs on. -/
def State.goesOn (s : State β) (thread : ℕ) (call : Call β) : State β := { s with calls := s.calls.set thread call }

/-- A call ends, and its request is finished. -/
def State.leaves (s : State β) (thread : ℕ) (resolved : Resolved β) : State β :=
  { s with
    coordinator := s.coordinator.finishLocked resolved.request
    calls := s.calls.erase thread
    resolved := resolved :: s.resolved }

/-- The first section of `resolve`. -/
def State.resolve (s : State β) (thread : ℕ) (request : String) (key : PageBaseReadFlightKey) (allowIndependent : Bool) : State β :=
  if s.coordinator.closed then s.leaves thread ⟨request, key, none, .cancelled "page-base coordinator is closed"⟩
  else
    match s.coordinator.membership request key with
    | none =>
      if allowIndependent then
        { s with coordinator := s.coordinator.finishLocked request }.goesOn thread (.independent request)
      else s.leaves thread ⟨request, key, none, .returnedNone⟩
    | some (f, flight) =>
      if request ∈ flight.cancelled then
        s.leaves thread ⟨request, key, some f, .cancelled "page-base request left the registered cohort"⟩
      else if flight.state = .registered then
        { s with
          coordinator := s.coordinator.put f { flight with state := .reading, leaderRequestId := some request } }.goesOn
          thread (.reading request key f)
      else s.goesOn thread (.following request key f false)

/-- A reader returns or raises. -/
def State.readerEnds (s : State β) (thread : ℕ) (readable : Readable β) : Option (State β) :=
  match s.calls.get? thread with
  | some (.independent _) => some { s with calls := s.calls.erase thread }
  | some (.reading request key f) =>
    let s := { s with reads := (f, readable) :: s.reads }
    match readable with
    | .interrupts =>
      some { s with calls := s.calls.erase thread, resolved := ⟨request, key, some f, .interrupted⟩ :: s.resolved }
    | _ => some (s.goesOn thread (.read request key f readable))
  | _ => none

/-- A flight that still lives changes, and its followers wake up. -/
def State.publish (s : State β) (key : PageBaseReadFlightKey) (f : ℕ) (flight : Flight β) : State β :=
  if s.coordinator.flights.get? key = some f then
    { s with coordinator := s.coordinator.put f flight, calls := notifyAll s.calls }
  else s

/-- A base leaves `resolve`. -/
def returning (result : Option (BaseValue β)) : Outcome β :=
  match result with
  | some value => .returned value
  | none => .releasedBeforeUse

/-- The last section of a leader. -/
def State.lead (s : State β) (thread : ℕ) (request : String) (key : PageBaseReadFlightKey) (f : ℕ) (flight : Flight β)
    (readable : Readable β) : State β :=
  let cancelled := request ∈ flight.cancelled ∨ s.coordinator.closed
  let lives := s.coordinator.flights.get? key = some f
  match readable.accept key.evidence.baseEncodedBytes with
  | .error message =>
    let error := (if lives then some message else flight.error).getD "page-base read rejected"
    (s.publish key f { flight with error := some message, state := .error }).leaves thread ⟨request, key, some f,
      if cancelled then .cancelled "page-base leader left the registered cohort" else .readError error⟩
  | .ok value =>
    let shared := if lives then some value else flight.result
    (s.publish key f { flight with result := some value, state := .ready }).leaves thread ⟨request, key, some f,
      if cancelled then .cancelled "page-base leader left the registered cohort" else returning shared⟩

/-- A follower looks at its flight. -/
def State.follow (s : State β) (thread : ℕ) (request : String) (key : PageBaseReadFlightKey) (f : ℕ) (flight : Flight β) : State β :=
  if request ∈ flight.cancelled ∨ s.coordinator.closed then
    s.leaves thread ⟨request, key, some f, .cancelled "page-base follower left the registered cohort"⟩
  else
    match flight.state with
    | .error => s.leaves thread ⟨request, key, some f, .readError (flight.error.getD "page-base read rejected")⟩
    | .ready => s.leaves thread ⟨request, key, some f, returning flight.result⟩
    | _ => s.goesOn thread (.following request key f true)

/-- A call takes its next section under the lock. -/
def State.proceed (s : State β) (thread : ℕ) : Option (State β) :=
  match s.calls.get? thread with
  | some (.read request key f readable) =>
    (s.coordinator.objects.get? f).map fun flight => s.lead thread request key f flight readable
  | some (.following request key f false) =>
    (s.coordinator.objects.get? f).map fun flight => s.follow thread request key f flight
  | _ => none

/-- Wake one member without cancelling its leader or other followers. -/
def State.cancel (s : State β) (request : String) : State β × Bool :=
  match s.coordinator.requests.get? request with
  | none => (s, false)
  | some key =>
    match s.coordinator.flights.get? key with
    | none => (s, false)
    | some f =>
      match s.coordinator.objects.get? f with
      | none => (s, false)
      | some flight =>
        ({ s with
            coordinator := s.coordinator.put f { flight with cancelled := insert request flight.cancelled }
            calls := notifyAll s.calls }, true)

/-- The members of live flights are cancelled. -/
def Coordinator.shut (c : Coordinator β) : Coordinator β :=
  { c with
    closed := true
    objects := c.objects.adjust fun f flight =>
      if c.flights.get? flight.key = some f then
        { flight with
          cancelled := flight.cancelled ∪ flight.members
          state := if flight.state = .error then .error else .closed }
      else flight }

/-- Cancel members, release retained bytes, and reject later reads. -/
def State.close (s : State β) : State β :=
  { s with
    coordinator := s.coordinator.requests.keys.foldl Coordinator.finishLocked s.coordinator.shut
    calls := notifyAll s.calls }

/-- What can happen next. -/
inductive Act (β : Type)
  | registerCohort (key : PageBaseReadFlightKey) (requestIds : List String)
  /-- A thread calls `resolve`. -/
  | resolve (thread : ℕ) (request : String) (key : PageBaseReadFlightKey) (allowIndependent : Bool)
  /-- The reader of a thread's call returns or raises. -/
  | readerEnds (thread : ℕ) (readable : Readable β)
  /-- A thread's call takes the lock again. -/
  | proceed (thread : ℕ)
  | cancel (request : String)
  | finish (request : String)
  | close

def step (bounds : FlightBounds) (s : State β) : Act β → Option (State β)
  | .registerCohort key requestIds => some { s with coordinator := (s.coordinator.registerCohort bounds key requestIds).1 }
  | .resolve thread request key allowIndependent =>
    if thread ∈ s.calls.keys then none else some (s.resolve thread request key allowIndependent)
  | .readerEnds thread readable => s.readerEnds thread readable
  | .proceed thread => s.proceed thread
  | .cancel request => some (s.cancel request).1
  | .finish request => some { s with coordinator := s.coordinator.finishLocked request }
  | .close => some s.close

/-- The request of a call that is a member of a flight. -/
def Call.member : Call β → Option String
  | .independent _ => none
  | .reading request .. => some request
  | .read request .. => some request
  | .following request .. => some request

/-- A call of the request runs as a member of a flight. -/
def State.resolving (s : State β) (request : String) : Prop := ∃ call ∈ s.calls.values, call.member = some request

instance (s : State β) (request : String) : Decidable (s.resolving request) :=
  inferInstanceAs (Decidable (∃ call ∈ s.calls.values, call.member = some request))

end SparkRing.PageBase
