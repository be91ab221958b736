import SparkRing.TransitionSystem
import SparkRing.WireWords

/-!
# The bootstrap's broker

The root of a bootstrap accepts connections, reads their hellos until every rank of the group
has joined, and then answers the group's all-gather rounds. Its thread is a loop around one
poll; an iteration is a function of what the clock, the poll and the receives and sends of
that iteration return.
-/

namespace SparkRing.BootstrapBroker

open WireWords (Bytes put32 get32)

/-- Bytes of an ID. -/
def idSize : ℕ := 128

/-- Bytes of a hello: the ID, the number of ranks and the rank. -/
def helloSize : ℕ := 136

/-- Most ranks of a group. -/
def maxRanks : ℕ := 8

/-- Connections that a root holds at once. -/
def maxPending : ℕ := 32

/-- Bytes of a frame's header. -/
def frameHeader : ℕ := 16

/-- Most bytes of a contribution. -/
def maxFrame : ℕ := 2 ^ 20

/-- Milliseconds within which a connection sends its hello. -/
def helloLimitMs : ℤ := 1000

/-- First bytes of a rank's frame. -/
def frameMagic : Bytes := [83, 67, 70, 49]

/-- First bytes of an answer. -/
def gatherMagic : Bytes := [83, 67, 82, 49]

/-- First bytes of a reply. -/
def replyMagic : Bytes := [83, 67, 67, 49]

/-- What a root replies to a connection. -/
inductive Result
  | ok
  | argument
  | usage
  | remote
  | timeout
deriving DecidableEq, Repr

def Result.code : Result → ℕ
  | .ok => 0
  | .argument => 4
  | .usage => 5
  | .remote => 6
  | .timeout => 8

/-- A connection that the root holds. -/
structure Peer where
  fd : ℕ
  /-- The rank that it joined as. -/
  rank : Option ℕ
  /-- When it was accepted. -/
  accepted : ℤ
  /-- The part of its hello that was read. -/
  hello : Bytes
  /-- The part of a frame's header that was read. -/
  frame : Bytes
  /-- The part of a frame's payload that was read. -/
  payload : Bytes
  payloadBytes : ℕ
  frameReady : Bool
deriving DecidableEq, Repr

/-- A connection just accepted. -/
def Peer.fresh (fd : ℕ) (accepted : ℤ) : Peer := ⟨fd, none, accepted, [], [], [], 0, false⟩

/-- A connection whose frame was answered. -/
def Peer.answered (p : Peer) : Peer := { p with frame := [], payload := [], payloadBytes := 0, frameReady := false }

/-- A root at the start of an iteration. -/
structure Root where
  id : Bytes
  /-- 0 before the first hello. -/
  nranks : ℕ
  joined : ℕ
  round : ℕ
  /-- When the group has to be complete. -/
  deadline : ℤ
  /-- The connections, by slot. -/
  peers : ℕ → Option Peer
  /-- The group was complete. -/
  ready : Bool
  /-- The loop was left. -/
  finished : Bool
  /-- What was sent to which connection, in order. -/
  wrote : List (ℕ × Bytes)

/-- A root whose thread starts. -/
def Root.start (id : Bytes) (deadline : ℤ) : Root := ⟨id, 0, 0, 0, deadline, fun _ => none, false, false, []⟩

/-- What a receive returns. -/
inductive Received
  | bytes (first : UInt8) (rest : Bytes)
  | closed
  /-- Interrupted, or nothing to read. -/
  | again
  | error
deriving DecidableEq, Repr

/-- What a poll reports of a connection, and what receives from it and an allocation return. -/
structure Event where
  /-- An error or an invalid descriptor. -/
  failed : Bool
  received : Received
  /-- What a second receive returns. -/
  next : Received
  allocated : Bool
deriving DecidableEq, Repr

/-- What an accept returns. -/
inductive Accept
  | interrupted
  /-- A connection that could not be configured. -/
  | unusable
  | connection (fd : ℕ) (accepted : ℤ)
deriving DecidableEq, Repr

/-- What a poll returns. -/
inductive Poll
  | interrupted
  | error
  /-- What it reports of the wake pipe, of the listener and of the connections. -/
  | events (wake : Bool) (listen : Option (List Accept)) (peers : ℕ → Option Event)

/-- What the calls of an iteration return. -/
structure Inputs where
  stopped : Bool
  /-- The clock when the deadline is looked at. -/
  first : ℤ
  /-- The clock when the poll's delay is computed. -/
  second : ℤ
  /-- The clock when slow hellos are looked for. -/
  now : ℤ
  poll : Poll
  allocated : Bool
  /-- How much of the answer to a rank was sent where it was not sent whole. -/
  lost : ℕ → Option ℕ

/-- A payload is read on (the second half of `read_frame`); `none` when the connection must be dropped. -/
def readPayload (p : Peer) (received : Received) : Option Peer :=
  if p.payload.length < p.payloadBytes then
    match received with
    | .closed | .error => none
    | .again => some p
    | .bytes first rest =>
      let payload := p.payload ++ (first :: rest).take (p.payloadBytes - p.payload.length)
      some { p with payload, frameReady := decide (payload.length = p.payloadBytes) }
  else some { p with frameReady := decide (p.payload.length = p.payloadBytes) }

/-- A joined connection's frame is read on (`read_frame`); `none` when the connection must be dropped. -/
def readFrame (round : ℕ) (p : Peer) (e : Event) : Option Peer :=
  if p.frameReady then
    -- Closed, or bytes ahead of the broker's answer.
    match e.received with
    | .again => some p
    | _ => none
  else if p.frame.length < frameHeader then
    match e.received with
    | .closed | .error => none
    | .again => some p
    | .bytes first rest =>
      let frame := p.frame ++ (first :: rest).take (frameHeader - p.frame.length)
      if frame.length < frameHeader then some { p with frame }
      else if frame.take 4 ≠ frameMagic ∨ get32 (frame.drop 4) ≠ round ∨ maxFrame < get32 (frame.drop 8) then none
      else if e.allocated = false then none
      else readPayload { p with frame, payloadBytes := get32 (frame.drop 8), payload := [] } e.next
  else readPayload p e.received

namespace Root

variable (r : Root)

/-- Slots with a connection, in order. -/
def slots : List ℕ := (List.range maxPending).filter fun i => (r.peers i).isSome

/-- The connection of a rank. -/
def byRank (k : ℕ) : Option Peer := (r.slots.filterMap r.peers).reverse.find? fun p => p.rank = some k

/-- The answer of a round: every rank's contribution with its length. -/
def answer : Bytes :=
  let body := WireWords.entries ((List.range r.nranks).map fun k => ((r.byRank k).map Peer.payload).getD [])
  gatherMagic ++ put32 r.round ++ put32 r.nranks ++ put32 body.length ++ body

/-- Every rank sent its frame of the round. -/
def roundReady : Bool :=
  (r.slots.all fun i => (r.peers i).all fun p => p.rank.isNone || p.frameReady) &&
    (List.range r.nranks).all fun k => (r.byRank k).isSome

/-- When every rank sent its frame, every rank is answered and the next round starts (`finish_round`);
and whether no answer was lost. -/
def finishRound (allocated : Bool) (lost : ℕ → Option ℕ) : Root × Bool :=
  if r.roundReady = false then (r, true)
  else if allocated = false then (r, false)
  else
    ({ r with
        round := (r.round + 1) % 2 ^ 32
        peers := fun i => (r.peers i).map fun p => if p.rank.isSome then p.answered else p
        wrote := r.wrote ++ (List.range r.nranks).map fun k =>
          (((r.byRank k).map Peer.fd).getD 0, match lost k with
            | none => r.answer
            | some m => r.answer.take m) },
      (List.range r.nranks).all fun k => (lost k).isNone)

/-- A connection gets a reply (`reply`). -/
def reply (fd : ℕ) (result : Result) : Root := { r with wrote := r.wrote ++ [(fd, replyMagic ++ put32 result.code)] }

/-- A connection is closed, with a reply if there is one, and its slot is free (`drop_peer`). -/
def dropPeer (i : ℕ) (result : Option Result) : Root :=
  match r.peers i with
  | none => r
  | some p =>
    let r := (result.map (r.reply p.fd)).getD r
    { r with
      joined := if p.rank.isSome then r.joined - 1 else r.joined
      peers := Function.update r.peers i none }

/-- A connection with a whole hello joins (`accept_hello`). -/
def acceptHello (i : ℕ) (p : Peer) : Root × Result :=
  let nranks := get32 (p.hello.drop idSize)
  let rank := get32 (p.hello.drop (idSize + 4))
  if p.hello.take idSize ≠ r.id then (r, .remote)
  else if nranks < 1 ∨ maxRanks < nranks ∨ nranks ≤ rank then (r, .argument)
  else if r.nranks ≠ 0 ∧ r.nranks ≠ nranks then (r, .usage)
  else if (r.slots.any fun j => (r.peers j).any fun q => q.rank = some rank) then (r, .usage)
  else
    ({ r with
        nranks
        joined := r.joined + 1
        peers := Function.update r.peers i (some { p with rank := some rank }) }, .ok)

/-- A connection is accepted into the first free slot, if there is one. -/
def acceptOne : Accept → Root
  | .interrupted | .unusable => r
  | .connection fd accepted =>
    match (List.range maxPending).find? fun i => (r.peers i).isNone with
    | none => r.reply fd .usage
    | some slot => { r with peers := Function.update r.peers slot (some (Peer.fresh fd accepted)) }

/-- A batch of connections is accepted (`accept_connections`). -/
def acceptConnections (accepts : List Accept) : Root := (accepts.take maxPending).foldl acceptOne r

/-- Connections without a whole hello in time are dropped. -/
def dropSlow (now : ℤ) : Root :=
  (List.range maxPending).foldl
    (fun r i => if (r.peers i).any (fun p => p.rank.isNone && decide (p.accepted + helloLimitMs - now ≤ 0)) then r.dropPeer i none else r) r

/-- Every connection is dropped. -/
def dropAll (result : Option Result) : Root := (List.range maxPending).foldl (fun r i => r.dropPeer i result) r

/-- The loop is left. -/
def done : Root := { r.dropAll (if r.ready then none else some .timeout) with finished := true }

/-- More of a connection's hello was read. -/
def helloRead (i : ℕ) (p : Peer) : Root :=
  let r := { r with peers := Function.update r.peers i (some p) }
  if p.hello.length = helloSize then
    let (r', result) := r.acceptHello i p
    if result = .ok then r' else r.dropPeer i (some result)
  else r

/-- A connection's events before the group is complete, and what may come of a connection without a
rank after it. -/
def handleHello (i : ℕ) (p : Peer) (e : Event) : Root :=
  if r.ready = true ∨ p.rank.isSome = true then
    -- Nothing is expected of the connection: its end and any byte drop it.
    match e.received with
    | .again => r
    | .closed | .error => r.dropPeer i none
    | .bytes .. => r.dropPeer i (some .usage)
  else
    match e.received with
    | .closed | .error => r.dropPeer i none
    | .again => r
    | .bytes first rest => r.helloRead i { p with hello := p.hello ++ (first :: rest).take (helloSize - p.hello.length) }

end Root

/-- A connection's events; with it whether a connection of the complete group was lost. -/
def handle (events : ℕ → Option Event) (s : Root × Bool) (i : ℕ) : Root × Bool :=
  match s.1.peers i, events i with
  | some p, some e =>
    if e.failed then (s.1.dropPeer i none, s.2)
    else if s.1.ready = true ∧ p.rank.isSome = true then
      match readFrame s.1.round p e with
      | none => (s.1, true)
      | some p => ({ s.1 with peers := Function.update s.1.peers i (some p) }, s.2)
    else (s.1.handleHello i p e, s.2)
  | _, _ => s

namespace Root

variable (r : Root)

/-- Whether no time is left to a point in time (`remaining_ms`). -/
def expired (now : ℤ) : Bool := decide (now < 0 ∨ r.deadline ≤ now)

/-- A connection hears that the group is complete; one that did not join is dropped. -/
def welcome (i : ℕ) : Root :=
  match r.peers i with
  | none => r
  | some p => if p.rank.isSome then r.reply p.fd .ok else r.dropPeer i (some .remote)

/-- A group whose ranks have all joined is complete. -/
def complete : Root :=
  if r.ready = false ∧ r.nranks ≠ 0 ∧ r.joined = r.nranks then (List.range maxPending).foldl welcome { r with ready := true } else r

/-- What follows the events of an iteration. -/
def settle (broken : Bool) (e : Inputs) : Root :=
  if broken then r.done
  else if r.ready then
    let (r', delivered) := r.finishRound e.allocated e.lost
    if delivered then r' else r'.done
  else r.complete

/-- An iteration of the loop (`root_thread`). -/
def iterate (e : Inputs) : Root :=
  if e.stopped = true ∨ r.ready = false ∧ r.expired e.first = true ∨ r.ready = true ∧ r.joined = 0 ∨
      r.ready = false ∧ r.expired e.second = true then r.done
  else
    let r' := if r.ready then r else r.dropSlow e.now
    match e.poll with
    | .interrupted => r'
    | .error => r'.done
    | .events wake listen peers =>
      if wake then r'.done
      else
        let accepted := if r.ready then r' else r'.acceptConnections (listen.getD [])
        let s := r.slots.foldl (handle peers) (accepted, false)
        s.1.settle s.2 e

end Root

/-- A step of the root's thread. -/
def step (r : Root) (e : Inputs) : Option Root := if r.finished then none else some (r.iterate e)

end SparkRing.BootstrapBroker
