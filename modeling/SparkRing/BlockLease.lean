import Mathlib.Data.Finset.Card
import SparkRing.OrderedDict
import SparkRing.TransitionSystem

/-!
# Ownership leases for asynchronous snapshot gathers

A registry leases blocks to requests. A lease is reserved, its gather is submitted
under the registry's lock, and it stays until its completion fence is done. Polls
and aborts read the leases under the lock, ask the fences outside it and release
under it again, so operations of several threads interleave between these steps.
-/

namespace SparkRing.BlockLease

open OrderedDict

/-- Hard admission bounds; neither limit queues inference. -/
structure LeaseCapacity where
  /-- The most leases at a time. -/
  maxActiveLeases : ℕ
  /-- The most blocks leased at a time. -/
  maxLeasedBlocks : ℕ
  /-- Some lease is admitted. -/
  maxActiveLeases_pos : 0 < maxActiveLeases
  /-- Some block is admitted. -/
  maxLeasedBlocks_pos : 0 < maxLeasedBlocks

/-- How far a lease went. -/
inductive LeaseState
  /-- Nothing was launched. -/
  | reserved
  | submitting
  /-- The fence is published. -/
  | armed
  /-- The submitter failed after it may have launched the gather. -/
  | submissionUnknown
  deriving DecidableEq

/-- A lease of blocks to a request. -/
structure Lease (φ : Type) where
  /-- The number of the lease. -/
  leaseId : ℕ
  /-- The request that owns the lease. -/
  requestId : String
  blockIds : List ℤ
  /-- How far the lease went. -/
  state : LeaseState := .reserved
  /-- The completion fence, once published. -/
  fence : Option φ := none
  deriving DecidableEq

/-- The registry of block reads in flight. -/
structure Registry (φ : Type) where
  /-- The number of the next lease. -/
  nextId : ℕ := 1
  leases : Dict ℕ (Lease φ) := Dict.empty
  /-- The active leases of each request. -/
  byRequest : Dict String (Finset ℕ) := Dict.empty
  /-- The lease that owns each leased block. -/
  blockOwner : Dict ℤ ℕ := Dict.empty

/-- An exception of the registry. -/
inductive Raised
  /-- A programmer error in an argument. -/
  | valueError (message : String)
  /-- A submitter that cannot be called. -/
  | typeError (message : String)
  /-- The caller violated the reserve, submit, complete order. -/
  | leaseStateError (message : String)
  /-- The status of a fence is unknown. -/
  | leaseFenceError (message : String)
  /-- An exception of a callback that is no `Exception`, such as an interrupt. -/
  | interrupted
  deriving DecidableEq

/-- An error inside the registry that no use of it should meet. -/
inductive Fault
  /-- A second release, or a lease that its request does not list. -/
  | keyError
  /-- The assertion that a block belongs to the released lease. -/
  | ownershipCorrupted
  /-- The assertion that an armed lease has a fence. -/
  | fenceMissing
  deriving DecidableEq

/-- What a submitter does when it is called. -/
inductive Submitter (φ : Type)
  /-- It cannot be called. -/
  | uncallable
  /-- It returns a fence. -/
  | fence (event : φ)
  /-- It returns something else. -/
  | other
  /-- It raises an `Exception`. -/
  | raises
  /-- It raises something that is no `Exception`. -/
  | interrupts

variable {φ : Type}

/-- Every block of a new lease is owned by it. -/
def ownBlocks (leaseId : ℕ) (owner : Dict ℤ ℕ) (blocks : List ℤ) : Dict ℤ ℕ :=
  blocks.foldl (fun owner block => owner.set block leaseId) owner

/-- The leases of a request, none where it has no set. -/
def Registry.leasesOf (r : Registry φ) (requestId : String) : Finset ℕ := (r.byRequest.get? requestId).getD ∅

/-- Reserve a lease without blocking: the handle's lease number, or none where
capacity or overlap skips the publication. -/
def Registry.tryReserve (capacity : LeaseCapacity) (r : Registry φ) (requestId : String) (blocks : List ℤ) :
    Registry φ × Except Raised (Option ℕ) :=
  if requestId = "" then (r, .error (.valueError "request_id must not be empty"))
  else if blocks = [] then (r, .error (.valueError "block_ids must not be empty"))
  else if blocks.toFinset.card ≠ blocks.length then (r, .error (.valueError "block_ids must be unique"))
  else if blocks.any fun block => decide (block < 0) then
    (r, .error (.valueError "block_ids must contain non-negative integers"))
  else if capacity.maxActiveLeases ≤ r.leases.size then (r, .ok none)
  else if capacity.maxLeasedBlocks < r.blockOwner.size + blocks.length then (r, .ok none)
  else if blocks.any fun block => decide (block ∈ r.blockOwner.keys) then (r, .ok none)
  else
    ({ nextId := r.nextId + 1
       leases := r.leases.set r.nextId { leaseId := r.nextId, requestId := requestId, blockIds := blocks }
       byRequest := r.byRequest.set requestId (insert r.nextId (r.leasesOf requestId))
       blockOwner := ownBlocks r.nextId r.blockOwner blocks }, .ok (some r.nextId))

/-- An active lease changes its state and fence. -/
def Registry.mark (r : Registry φ) (lease : Lease φ) (state : LeaseState) (fence : Option φ) : Registry φ :=
  { r with leases := r.leases.set lease.leaseId { lease with state := state, fence := fence } }

/-- Transition through submission to an armed fence, the submitter called under the lock. -/
def Registry.submit (r : Registry φ) (leaseId : ℕ) (submitter : Submitter φ) : Registry φ × Except Raised Unit :=
  let unknown := Raised.leaseFenceError s!"submission status unknown for lease {leaseId}"
  match submitter with
  | .uncallable => (r, .error (.typeError "submitter must be callable"))
  | submitter =>
    match r.leases.get? leaseId with
    | none => (r, .error (.leaseStateError "lease is no longer active"))
    | some lease =>
      if lease.state ≠ .reserved then (r, .error (.leaseStateError "lease has already entered submission"))
      else
        match submitter with
        | .fence event => (r.mark lease .armed (some event), .ok ())
        -- only an `Exception` is caught, so an interrupt leaves the lease in its submission
        | .interrupts => (r.mark lease .submitting none, .error .interrupted)
        | _ => (r.mark lease .submissionUnknown none, .error unknown)

/-- The submission that a call of `submit` makes: the lease and the fence published for
it, none where no fence was; nothing where the submitter is not called. -/
def Registry.submission (r : Registry φ) (leaseId : ℕ) (submitter : Submitter φ) : Option (ℕ × Option φ) :=
  match r.leases.get? leaseId with
  | none => none
  | some lease =>
    if lease.state ≠ .reserved then none
    else
      match submitter with
      | .uncallable => none
      | .fence event => some (leaseId, some event)
      | _ => some (leaseId, none)

/-- The blocks of a lease lose their owner. -/
def releaseBlocks (leaseId : ℕ) (owner : Dict ℤ ℕ) : List ℤ → Except Fault (Dict ℤ ℕ)
  | [] => .ok owner
  | block :: blocks =>
    match owner.get? block with
    | none => .error .keyError
    | some id => if id ≠ leaseId then .error .ownershipCorrupted else releaseBlocks leaseId (owner.erase block) blocks

/-- A lease leaves the registry. What an error would leave half done is not kept. -/
def Registry.releaseLocked (r : Registry φ) (lease : Lease φ) : Except Fault (Registry φ) :=
  match r.leases.get? lease.leaseId, r.byRequest.get? lease.requestId with
  | some _, some ids =>
    if lease.leaseId ∉ ids then .error .keyError
    else
      match releaseBlocks lease.leaseId r.blockOwner lease.blockIds with
      | .error fault => .error fault
      | .ok owner =>
        .ok { r with
          leases := r.leases.erase lease.leaseId
          byRequest := if ids.erase lease.leaseId = ∅ then r.byRequest.erase lease.requestId
            else r.byRequest.set lease.requestId (ids.erase lease.leaseId)
          blockOwner := owner }
  | _, _ => .error .keyError

/-- The leases of a list leave the registry one after another. -/
def Registry.releaseEach (r : Registry φ) : List (Lease φ) → Except Fault (Registry φ)
  | [] => .ok r
  | lease :: leases =>
    match r.releaseLocked lease with
    | .error fault => .error fault
    | .ok r => r.releaseEach leases

/-- The leases of a list that are still active leave the registry, and are counted. -/
def Registry.releaseActive (r : Registry φ) (released : ℕ) : List ℕ → Except Fault (Registry φ × ℕ)
  | [] => .ok (r, released)
  | leaseId :: ids =>
    match r.leases.get? leaseId with
    | none => r.releaseActive released ids
    | some lease =>
      match r.releaseLocked lease with
      | .error fault => .error fault
      | .ok r => r.releaseActive (released + 1) ids

/-- Release a lease before any work was launched. -/
def Registry.cancelBeforeSubmit (r : Registry φ) (leaseId : ℕ) : Except Fault (Registry φ × Except Raised Unit) :=
  match r.leases.get? leaseId with
  | none => .ok (r, .error (.leaseStateError "lease is no longer active"))
  | some lease =>
    if lease.state ≠ .reserved then
      .ok (r, .error (.leaseStateError "a submitted lease must be drained, never cancelled"))
    else
      match r.releaseLocked lease with
      | .error fault => .error fault
      | .ok r => .ok (r, .ok ())

/-- The active leases whose fence is published. -/
def Registry.armed (r : Registry φ) : List (Lease φ) := r.leases.values.filter fun lease => decide (lease.state = .armed)

/-- The leases of a request at the start of its abort, in the order its set gives them. -/
def Registry.abortLeases (r : Registry φ) : List ℕ → Except Fault (List (Lease φ))
  | [] => .ok []
  | leaseId :: ids =>
    match r.leases.get? leaseId with
    | none => .error .keyError
    | some lease =>
      match r.abortLeases ids with
      | .error fault => .error fault
      | .ok leases => .ok (lease :: leases)

def inState (state : LeaseState) (leases : List (Lease φ)) : List (Lease φ) :=
  leases.filter fun lease => decide (lease.state = state)

/-- What a fence does when a thread asks it to `query` or to `synchronize`. -/
inductive Answer
  /-- It reports the read complete, or returns from the wait. -/
  | done
  /-- It reports the read incomplete, or still waits. -/
  | pending
  | raises
  deriving DecidableEq

/-- The call that a poll belongs to. -/
inductive Polling
  /-- `poll` itself. -/
  | poll
  /-- `take_finished` of some requests, called when the next lease number was `since`. -/
  | takeFinished (finished : Finset String) (since : ℕ)

/-- The call that an abort of a request with `wait` belongs to. -/
inductive Aborting
  /-- `abort_request` itself. -/
  | alone
  /-- `abort_all`, with the requests still to abort and the leases released so far. -/
  | all (rest : List String) (total : ℕ)

/-- Where a thread stands between two steps. -/
inductive Thread (φ : Type)
  /-- No call runs. -/
  | idle
  /-- A poll asks fences, those of `todo` still to ask, those of `completed` done. -/
  | polling (todo : List (Lease φ)) (completed : List ℕ) (call : Polling)
  /-- `take_finished` after its poll. -/
  | taking (finished : Finset String) (since : ℕ)
  /-- An abort without `wait` asks fences. -/
  | querying (todo done : List (Lease φ)) (released : ℕ)
  /-- An abort with `wait` waits for fences. The request had the leases `start`. -/
  | synchronizing (todo armed : List (Lease φ)) (released : ℕ) (start : List ℕ) (call : Aborting)
  /-- `abort_all` between two requests. -/
  | abortingAll (rest : List String) (total : ℕ)

/-- A normal return. -/
inductive Returned
  /-- `poll` released so many leases. -/
  | polled (released : ℕ)
  /-- `take_finished` returned some requests. Its call saw `since` as the next lease number. -/
  | took (since : ℕ) (ready : Finset String)
  /-- `abort_request` without `wait` released so many leases. -/
  | deferred (released : ℕ)
  /-- `abort_request` with `wait` released so many leases. The request had the leases `start`. -/
  | aborted (start : List ℕ) (released : ℕ)
  /-- `abort_all` released so many leases. -/
  | abortedAll (total : ℕ)
  deriving DecidableEq

/-- The registry, the threads that use it, and what happened. -/
structure State (φ : Type) where
  registry : Registry φ := {}
  threads : ℕ → Thread φ := fun _ => .idle
  /-- Every submission made: the lease and the fence its submitter returned, if it did. -/
  submitted : List (ℕ × Option φ) := []
  /-- Every fence that answered done to `query` or returned from `synchronize`, with the lease
  it was asked for. -/
  answered : List (ℕ × φ) := []
  returned : List Returned := []
  /-- Every error inside the registry. -/
  faults : List Fault := []

/-- What a thread does. -/
inductive Act (φ : Type)
  /-- Call `try_reserve`. -/
  | tryReserve (requestId : String) (blocks : List ℤ)
  /-- Call `submit` on a handle. -/
  | submit (leaseId : ℕ) (submitter : Submitter φ)
  /-- Call `cancel_before_submit` on a handle. -/
  | cancelBeforeSubmit (leaseId : ℕ)
  /-- Call `poll`, which reads the armed leases. -/
  | poll
  /-- Call `take_finished`, which reads the armed leases. -/
  | takeFinished (finished : Finset String)
  /-- Call `abort_request`, which releases what is reserved. The set of the request's leases
  is read in some order. -/
  | abortRequest (requestId : String) (wait : Bool) (order : List ℕ)
  /-- Call `abort_all`, which reads the requests. -/
  | abortAll
  /-- Within `abort_all`, call `abort_request` on the next request. -/
  | abortNext (order : List ℕ)
  /-- Ask the next fence of the running call. -/
  | ask (answer : Answer)
  /-- Take the lock again, after all fences of the running call answered. -/
  | finish

/-- A thread goes on elsewhere. -/
def State.goto (s : State φ) (t : ℕ) (thread : Thread φ) : State φ := { s with threads := Function.update s.threads t thread }

/-- A call ends with an error inside the registry. -/
def State.fail (s : State φ) (t : ℕ) (fault : Fault) : State φ := { s.goto t .idle with faults := fault :: s.faults }

/-- The registry changes. -/
def State.commit (s : State φ) (r : Registry φ) : State φ := { s with registry := r }

/-- A call returns. -/
def State.return (s : State φ) (what : Returned) : State φ := { s with returned := what :: s.returned }

/-- A fence answered for a lease. -/
def State.answer (s : State φ) (leaseId : ℕ) (event : φ) : State φ := { s with answered := (leaseId, event) :: s.answered }

/-- A submission was made, if one was. -/
def State.submission (s : State φ) (made : Option (ℕ × Option φ)) : State φ := { s with submitted := made.toList ++ s.submitted }

/-- The locked start of `abort_request`: what is reserved is released, an unknown submission
raises, and the armed leases are left to their fences. -/
def State.abort (s : State φ) (t : ℕ) (requestId : String) (order : List ℕ) (next : List (Lease φ) → ℕ → Thread φ) :
    Option (State φ) :=
  if order.Nodup ∧ order.toFinset = s.registry.leasesOf requestId then
    match s.registry.abortLeases order with
    | .error fault => some (s.fail t fault)
    | .ok leases =>
      match s.registry.releaseEach (inState .reserved leases) with
      | .error fault => some (s.fail t fault)
      | .ok r =>
        if inState .submissionUnknown leases = [] then
          some ((s.commit r).goto t (next (inState .armed leases) (inState .reserved leases).length))
        else some ((s.commit r).goto t .idle)
  else none

/-- An abort of a request with `wait` returns to its caller. -/
def Aborting.resume (released : ℕ) : Aborting → Thread φ
  | .alone => .idle
  | .all rest total => .abortingAll rest (total + released)

/-- One step of one thread. -/
def step (capacity : LeaseCapacity) (s : State φ) : ℕ × Act φ → Option (State φ)
  | (t, .tryReserve requestId blocks) =>
    match s.threads t with
    | .idle => some (s.commit (s.registry.tryReserve capacity requestId blocks).1)
    | _ => none
  | (t, .submit leaseId submitter) =>
    match s.threads t with
    | .idle => some ((s.commit (s.registry.submit leaseId submitter).1).submission (s.registry.submission leaseId submitter))
    | _ => none
  | (t, .cancelBeforeSubmit leaseId) =>
    match s.threads t with
    | .idle =>
      match s.registry.cancelBeforeSubmit leaseId with
      | .error fault => some (s.fail t fault)
      | .ok (r, _) => some (s.commit r)
    | _ => none
  | (t, .poll) =>
    match s.threads t with
    | .idle => some (s.goto t (.polling s.registry.armed [] .poll))
    | _ => none
  | (t, .takeFinished finished) =>
    match s.threads t with
    | .idle => some (s.goto t (.polling s.registry.armed [] (.takeFinished finished s.registry.nextId)))
    | _ => none
  | (t, .abortRequest requestId wait order) =>
    match s.threads t with
    | .idle =>
      s.abort t requestId order fun armed released =>
        if wait then .synchronizing armed armed released order .alone else .querying armed [] released
    | _ => none
  | (t, .abortAll) =>
    match s.threads t with
    | .idle => some (s.goto t (.abortingAll s.registry.byRequest.keys 0))
    | _ => none
  | (t, .abortNext order) =>
    match s.threads t with
    | .abortingAll (requestId :: rest) total =>
      s.abort t requestId order fun armed released => .synchronizing armed armed released order (.all rest total)
    | _ => none
  | (t, .ask answer) =>
    match s.threads t with
    | .polling (lease :: todo) completed call =>
      match lease.fence, answer with
      | none, _ => some (s.fail t .fenceMissing)
      | some _, .raises => some (s.goto t .idle)
      | some _, .pending => some (s.goto t (.polling todo completed call))
      | some event, .done => some ((s.goto t (.polling todo (completed ++ [lease.leaseId]) call)).answer lease.leaseId event)
    | .querying (lease :: todo) done released =>
      match lease.fence, answer with
      | none, _ => some (s.fail t .fenceMissing)
      | some _, .raises => some (s.goto t .idle)
      | some _, .pending => some (s.goto t (.querying todo done released))
      | some event, .done => some ((s.goto t (.querying todo (done ++ [lease]) released)).answer lease.leaseId event)
    | .synchronizing (lease :: todo) armed released start call =>
      match lease.fence, answer with
      | none, _ => some (s.fail t .fenceMissing)
      | some _, .raises => some (s.goto t .idle)
      | some _, .pending => none
      | some event, .done => some ((s.goto t (.synchronizing todo armed released start call)).answer lease.leaseId event)
    | _ => none
  | (t, .finish) =>
    match s.threads t with
    | .polling [] completed call =>
      match s.registry.releaseActive 0 completed, call with
      | .error fault, _ => some (s.fail t fault)
      | .ok (r, released), .poll => some (((s.commit r).goto t .idle).return (.polled released))
      | .ok (r, _), .takeFinished finished since => some ((s.commit r).goto t (.taking finished since))
    | .taking finished since =>
      some ((s.goto t .idle).return (.took since (finished \ s.registry.byRequest.keys.toFinset)))
    | .querying [] done released =>
      match s.registry.releaseActive released (done.map Lease.leaseId) with
      | .error fault => some (s.fail t fault)
      | .ok (r, released) => some (((s.commit r).goto t .idle).return (.deferred released))
    | .synchronizing [] armed released start call =>
      match s.registry.releaseActive released (armed.map Lease.leaseId) with
      | .error fault => some (s.fail t fault)
      | .ok (r, released) => some (((s.commit r).goto t (call.resume released)).return (.aborted start released))
    | .abortingAll [] total => some ((s.goto t .idle).return (.abortedAll total))
    | _ => none

end SparkRing.BlockLease
