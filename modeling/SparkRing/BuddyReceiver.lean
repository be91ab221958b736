import Mathlib.Data.Finset.Range
import SparkRing.OrderedDict
import SparkRing.ReplicaFrames

/-!
# The receiver of buddy replication

A receiver stages the chunks of a bounded number of transactions and publishes a
replica when a commit names exactly what it staged. Frames of an older generation
are refused, and abandoned transactions expire. Digests, the JSON reader and the
test for an abandoned transaction belong to the host.
-/

namespace SparkRing.Replication

open OrderedDict

/-- What the host provides. Clock readings are of any type. -/
structure Host (τ : Type) where
  /-- The SHA-256 digest of bytes in hexadecimal. -/
  sha256 : Bytes → String
  /-- The JSON reader. -/
  loads : Bytes → Loaded
  /-- At the first reading, the lifetime of a transaction last active at the second one is over. -/
  stale : τ → τ → Bool

/-- The bounds and callbacks of a receiver. -/
structure ReceiverConfig where
  /-- The most transactions at a time. -/
  maxActiveTransactions : ℕ
  /-- The most bytes staged at a time. -/
  maxStagedBytes : ℕ
  /-- The most chunks staged at a time. -/
  maxStagedChunks : ℕ
  /-- The most chunks of one transaction. -/
  maxContextChunks : ℕ
  /-- The most commits remembered. -/
  recentCommits : ℕ
  /-- The most generations remembered, except those of active transactions. -/
  recentGenerations : ℕ
  /-- Payloads of chunks go to a callback. -/
  onChunk : Bool
  /-- Commits go to a callback where payloads do. -/
  onStreamCommit : Bool
  /-- Commits go to a callback where payloads are staged. -/
  onCommit : Bool
  /-- Every bound is positive. -/
  positive : 0 < maxActiveTransactions ∧ 0 < maxStagedBytes ∧ 0 < maxStagedChunks ∧ 0 < maxContextChunks ∧
    0 < recentCommits ∧ 0 < recentGenerations

/-- A published replica. -/
structure CommittedReplica where
  /-- The transaction in its generation. -/
  key : Key
  /-- The context of the replica. -/
  contextDigest : String
  /-- The identity of the replica. -/
  identityDigest : String
  /-- The digest of the commit record. -/
  manifestDigest : String
  chunkDigests : List String
  deriving DecidableEq

/-- A chunk that a callback gets. -/
structure ReplicaChunk where
  /-- The transaction in its generation. -/
  key : Key
  /-- The context of the replica. -/
  contextDigest : String
  /-- The identity of the replica. -/
  identityDigest : String
  /-- The place of the chunk. -/
  chunkIndex : ℕ
  chunkDigest : String
  /-- The chunk. -/
  payload : Bytes
  deriving DecidableEq

/-- An active transaction. -/
structure ReceiveTransaction (τ : Type) where
  /-- The transaction in its generation. -/
  key : Key
  /-- The context of the replica. -/
  contextDigest : String
  /-- The identity of the replica. -/
  identityDigest : String
  /-- The clock when the transaction was last active. -/
  lastActivity : τ
  /-- The digests of the chunks by place, with the payloads that are staged. -/
  chunks : Dict ℕ (String × Option Bytes) := Dict.empty
  /-- The digests of the frames by their numbers. -/
  sequences : Dict ℕ String := Dict.empty

/-- The state of a receiver. -/
structure Receiver (τ : Type) where
  active : Dict Key (ReceiveTransaction τ) := Dict.empty
  /-- The newest generations, the one set longest ago first. -/
  latestGeneration : Dict String ℕ := Dict.empty
  /-- The remembered commits, the oldest first. -/
  committed : Dict Key CommittedReplica := Dict.empty
  /-- The number of the next response. -/
  responseSequence : ℕ := 0

variable {τ : Type}

/-- The bytes a chunk stages. -/
def chunkBytes (chunk : String × Option Bytes) : ℕ := (chunk.2.map List.length).getD 0

/-- One where a chunk stages its payload. -/
def chunkFrames (chunk : String × Option Bytes) : ℕ := if chunk.2.isSome then 1 else 0

def ReceiveTransaction.stagedBytes (transaction : ReceiveTransaction τ) : ℕ := transaction.chunks.total chunkBytes

def ReceiveTransaction.stagedChunks (transaction : ReceiveTransaction τ) : ℕ := transaction.chunks.total chunkFrames

def Receiver.stagedBytes (r : Receiver τ) : ℕ := r.active.total ReceiveTransaction.stagedBytes

def Receiver.stagedChunks (r : Receiver τ) : ℕ := r.active.total ReceiveTransaction.stagedChunks

/-- Drop a transaction. -/
def Receiver.discard (r : Receiver τ) (key : Key) : Receiver τ := { r with active := r.active.erase key }

/-- The generation of a frame is not older than the newest remembered one. -/
def Receiver.checkGeneration (r : Receiver τ) (key : Key) : Bool :=
  match r.latestGeneration.get? key.transactionId with
  | none => true
  | some latest => decide (latest ≤ key.generation)

/-- Drop the oldest generations of transactions that are not active while too many are
remembered, each turn of the loop one. -/
def trimGenerations (limit : ℕ) (active : Dict Key (ReceiveTransaction τ)) : ℕ → Dict String ℕ → Dict String ℕ
  | 0, latest => latest
  | turns + 1, latest =>
    if latest.size ≤ limit then latest
    else
      match latest.keys.find? fun candidate => !active.keys.any fun key => decide (key.transactionId = candidate) with
      | none => latest
      | some removable => trimGenerations limit active turns (latest.erase removable)

/-- The newest generation of a transaction. -/
def Receiver.rememberGeneration (config : ReceiverConfig) (r : Receiver τ) (key : Key) : Receiver τ :=
  let latest := (r.latestGeneration.set key.transactionId key.generation).moveToEnd key.transactionId
  { r with latestGeneration := trimGenerations config.recentGenerations r.active latest.size latest }

def Receiver.rememberCommit (config : ReceiverConfig) (r : Receiver τ) (replica : CommittedReplica) : Receiver τ :=
  let committed := (r.committed.set replica.key replica).moveToEnd replica.key
  { r with committed := Dict.trimOldest config.recentCommits committed.size committed }

/-- Discard abandoned transactions. -/
def Receiver.expireInactive (host : Host τ) (r : Receiver τ) (now : τ) : Receiver τ :=
  { r with active := r.active.filter fun item => !host.stale now item.2.lastActivity }

/-- What a callback does. -/
inductive CallbackOutcome
  | returns
  /-- It raises an `Exception`. -/
  | raises
  /-- It raises something that is no `Exception`. -/
  | interrupts
  deriving DecidableEq

/-- A callback that was entered. -/
inductive Callback
  /-- `on_chunk`. -/
  | chunk (chunk : ReplicaChunk)
  /-- `on_commit`, with the staged payloads and the commit record. -/
  | commit (replica : CommittedReplica) (payloads : List Bytes) (record : Bytes)
  /-- `on_stream_commit`, with the commit record. -/
  | streamCommit (replica : CommittedReplica) (record : Bytes)
  deriving DecidableEq

/-- What handling a frame came to. -/
structure Handled (τ : Type) where
  receiver : Receiver τ
  /-- The status of the answer; none where an exception leaves the receiver. -/
  status : Option Status
  /-- The callback that was entered, if one was. -/
  entered : Option Callback := none
  /-- The frame was aborted because what is staged would exceed a bound. -/
  overrun : Bool := false

/-- A frame refused without a change. -/
def Receiver.answer (r : Receiver τ) (status : Status) : Handled τ := { receiver := r, status := some status }

/-- A transaction dropped. -/
def Receiver.abandon (r : Receiver τ) (key : Key) : Handled τ := { receiver := r.discard key, status := some .aborted }

/-- A transaction that was active now. -/
def Receiver.touch (r : Receiver τ) (transaction : ReceiveTransaction τ) (now : τ) : Receiver τ :=
  { r with active := r.active.set transaction.key { transaction with lastActivity := now } }

/-- The transaction that a newer generation replaces is dropped. -/
def Receiver.supersede (r : Receiver τ) (key : Key) : Receiver τ :=
  match r.latestGeneration.get? key.transactionId with
  | none => r
  | some latest => if latest < key.generation then r.discard ⟨key.transactionId, latest⟩ else r

/-- Open a transaction. -/
def Receiver.begin (host : Host τ) (config : ReceiverConfig) (r : Receiver τ) (frame : Frame)
    (contextDigest identityDigest : String) (now : τ) : Handled τ :=
  let key := frame.key
  match r.committed.get? key with
  | some committed =>
    if committed.contextDigest = contextDigest ∧ committed.identityDigest = identityDigest then r.answer .committed
    else r.answer .rejected
  | none =>
    match r.active.get? key with
    | some existing =>
      if existing.contextDigest = contextDigest ∧ existing.identityDigest = identityDigest then
        (r.touch existing now).answer .duplicate
      else r.abandon key
    | none =>
      let r := r.supersede key
      if config.maxActiveTransactions ≤ r.active.size then r.answer .rejected
      else
        match frame.encode with
        | .error _ => { receiver := r, status := none }
        | .ok encoded =>
          let transaction : ReceiveTransaction τ :=
            { key := key, contextDigest := contextDigest, identityDigest := identityDigest, lastActivity := now
              sequences := Dict.empty.set frame.sequence (host.sha256 encoded) }
          (Receiver.rememberGeneration config { r with active := r.active.set key transaction } key).answer .ok

/-- The bounds that one more chunk would exceed. -/
def Receiver.exceeds (config : ReceiverConfig) (r : Receiver τ) (stagedPayload : Option Bytes) : Bool :=
  decide (config.maxStagedBytes < r.stagedBytes + (stagedPayload.map List.length).getD 0) ||
    decide (config.maxStagedChunks < r.stagedChunks + if stagedPayload.isSome then 1 else 0)

/-- The last part of staging a chunk, after its callback. -/
def Receiver.stage (config : ReceiverConfig) (r : Receiver τ) (transaction : ReceiveTransaction τ) (sequence : ℕ)
    (fingerprint : String) (index : ℕ) (digest : String) (stagedPayload : Option Bytes) (now : τ)
    (entered : Option Callback) : Handled τ :=
  if r.exceeds config stagedPayload then { r.abandon transaction.key with entered := entered, overrun := true }
  else
    { receiver := r.touch { transaction with
        chunks := transaction.chunks.set index (digest, stagedPayload)
        sequences := transaction.sequences.set sequence fingerprint } now
      status := some .ok
      entered := entered }

/-- Stage a chunk. -/
def Receiver.putChunk (host : Host τ) (config : ReceiverConfig) (r : Receiver τ) (frame : Frame) (index : ℕ) (digest : String)
    (payload : Bytes) (now : τ) (outcome : CallbackOutcome) : Handled τ :=
  match r.active.get? frame.key with
  | none => r.answer .rejected
  | some transaction =>
    match frame.encode with
    | .error _ => { receiver := r, status := none }
    | .ok encoded =>
      let fingerprint := host.sha256 encoded
      match transaction.sequences.get? frame.sequence with
      | some seen => if seen = fingerprint then (r.touch transaction now).answer .duplicate else r.abandon frame.key
      | none =>
        if host.sha256 payload ≠ digest then r.abandon frame.key
        else
          match transaction.chunks.get? index with
          | some existing =>
            if existing.1 = digest ∧ (existing.2 = none ∨ existing.2 = some payload) then
              (r.touch transaction now).answer .duplicate
            else r.abandon frame.key
          | none =>
            if config.maxContextChunks < transaction.chunks.size + 1 then r.abandon frame.key
            else if config.onChunk then
              let entered := some (.chunk ⟨transaction.key, transaction.contextDigest, transaction.identityDigest, index, digest, payload⟩)
              match outcome with
              | .raises => { r.abandon frame.key with entered := entered }
              | .interrupts => { receiver := r, status := none, entered := entered }
              | .returns => r.stage config transaction frame.sequence fingerprint index digest none now entered
            else r.stage config transaction frame.sequence fingerprint index digest (some payload) now none

/-- The chunks of a transaction at some places, none where one is missing. -/
def ReceiveTransaction.ordered (transaction : ReceiveTransaction τ) : List ℕ → Option (List (String × Option Bytes))
  | [] => some []
  | index :: indices =>
    match transaction.chunks.get? index with
    | none => none
    | some chunk => (transaction.ordered indices).map (chunk :: ·)

/-- The callback of a commit, if the receiver has one. -/
def commitCallback (config : ReceiverConfig) (replica : CommittedReplica) (ordered : List (String × Option Bytes)) (record : Bytes) :
    Option Callback :=
  if config.onChunk then if config.onStreamCommit then some (.streamCommit replica record) else none
  else if config.onCommit then some (.commit replica (ordered.filterMap Prod.snd) record)
  else none

/-- Publish a replica that was verified. -/
def Receiver.publish (config : ReceiverConfig) (r : Receiver τ) (replica : CommittedReplica)
    (entered : Option Callback) (outcome : CallbackOutcome) : Handled τ :=
  match entered, outcome with
  | some callback, .raises => { r.abandon replica.key with entered := some callback }
  | some callback, .interrupts => { receiver := r, status := none, entered := some callback }
  | _, _ =>
    { receiver := (r.discard replica.key).rememberCommit config replica, status := some .committed, entered := entered }

/-- Publish a replica whose commit record names what was staged. -/
def Receiver.commit (host : Host τ) (config : ReceiverConfig) (r : Receiver τ) (key : Key) (manifestDigest : String)
    (chunkCount : ℕ) (payload : Bytes) (outcome : CallbackOutcome) : Handled τ :=
  match r.committed.get? key with
  | some prior => if prior.manifestDigest = manifestDigest then r.answer .committed else r.answer .rejected
  | none =>
    match r.active.get? key with
    | none => r.answer .rejected
    | some transaction =>
      if host.sha256 payload ≠ manifestDigest then r.abandon key
      else
        match decodeCommitRecord host.loads payload with
        | .raises => { receiver := r, status := none }
        | .protocolError _ => r.abandon key
        | .record record =>
          if record.transactionId ≠ transaction.key.transactionId ∨ record.generation ≠ transaction.key.generation ∨
              record.contextDigest ≠ transaction.contextDigest ∨ record.chunkDigests.length ≠ chunkCount ∨
              transaction.chunks.keys.toFinset ≠ Finset.range chunkCount then r.abandon key
          else
            match transaction.ordered (List.range chunkCount) with
            | none => { receiver := r, status := none }
            | some ordered =>
              if ordered.map Prod.fst ≠ record.chunkDigests then r.abandon key
              else
                let replica : CommittedReplica :=
                  ⟨transaction.key, transaction.contextDigest, transaction.identityDigest, manifestDigest, ordered.map Prod.fst⟩
                r.publish config replica (commitCallback config replica ordered payload) outcome

/-- Drop a transaction at its sender's request. -/
def Receiver.abort (r : Receiver τ) (key : Key) : Handled τ :=
  if key ∈ r.active.keys then r.abandon key else r.answer .duplicate

/-- Handle a frame after expiry. -/
def Receiver.handle (host : Host τ) (config : ReceiverConfig) (r : Receiver τ) (frame : Frame) (now : τ)
    (outcome : CallbackOutcome) : Handled τ :=
  let guarded := fun handled : Handled τ => if r.checkGeneration frame.key then handled else r.answer .rejected
  match frame.body with
  | .begin contextDigest identityDigest => guarded (r.begin host config frame contextDigest identityDigest now)
  | .putChunk index digest payload => guarded (r.putChunk host config frame index digest payload now outcome)
  | .commit manifestDigest chunkCount payload =>
    guarded (r.commit host config frame.key manifestDigest chunkCount payload outcome)
  | .abort _ => guarded (r.abort frame.key)
  -- the receiver accepts only transaction frames
  | .ack .. | .credit .. => { receiver := r, status := none }

/-- The answer to a frame and the credit beside it. -/
def Receiver.responses (config : ReceiverConfig) (r : Receiver τ) (frame : Frame) (status : Status) : List Frame :=
  [⟨frame.key, r.responseSequence, .ack frame.sequence status⟩,
    ⟨frame.key, r.responseSequence + 1, .credit (config.maxStagedBytes - r.stagedBytes) (config.maxStagedChunks - r.stagedChunks)⟩]

/-- Receive a frame. The clock is read for the expiry and again for the transaction. -/
def Receiver.receive (host : Host τ) (config : ReceiverConfig) (r : Receiver τ) (frame : Frame) (expireAt now : τ)
    (outcome : CallbackOutcome) : Handled τ × List Frame :=
  let handled := (r.expireInactive host expireAt).handle host config frame now outcome
  match handled.status with
  | none => (handled, [])
  | some status =>
    ({ handled with receiver := { handled.receiver with responseSequence := handled.receiver.responseSequence + 2 } },
      handled.receiver.responses config frame status)

end SparkRing.Replication
