import SparkRing.OrderedDict
import SparkRing.TransitionSystem

/-!
# The planner of streaming snapshots

The planner takes the token counts that a chunked prefill has completed and answers with
batches: ranges of whole chunks with the physical blocks that hold them. A batch is pending
until its gather has completed. When a new range does not fit among the pending batches, or
its blocks cannot be mapped, the session is given up and its pending batches are handed back.
-/

namespace SparkRing.Planner

open OrderedDict

/-- The bounds of a planner, each positive. -/
structure Limits where
  chunkTokens : ℕ
  chunksPerBatch : ℕ
  /-- Batches pending at once, over all sessions. -/
  maxInflightBatches : ℕ
  /-- Sessions live at once. -/
  maxSessions : ℕ
  chunk_pos : 0 < chunkTokens
  batch_pos : 0 < chunksPerBatch
  /-- Some batch may be pending. -/
  inflight_pos : 0 < maxInflightBatches
  /-- Some session may live. -/
  sessions_pos : 0 < maxSessions

/-- Tokens in a full batch. -/
def Limits.batchTokens (limits : Limits) : ℕ := limits.chunkTokens * limits.chunksPerBatch

theorem Limits.batchTokens_pos (limits : Limits) : 0 < limits.batchTokens :=
  Nat.mul_pos limits.chunk_pos limits.batch_pos

/-- What a mapper may list as a block. -/
inductive Block
  /-- An integer. -/
  | id (number : ℤ)
  /-- Anything else. -/
  | foreign
  deriving DecidableEq, Repr

/-- A block identifier is a non-negative integer. -/
def Block.valid : Block → Bool
  | .id number => decide (0 ≤ number)
  | .foreign => false

/-- How one call of the block mapper ends. -/
inductive Mapping
  | blocks (ids : List Block)
  /-- It raises an ordinary exception. -/
  | fails
  /-- It is interrupted by an exception no handler here catches. -/
  | interrupts
  deriving DecidableEq, Repr

/-- Where a session stands. -/
inductive SnapshotState
  /-- Ranges are still planned or gathered. -/
  | active
  /-- Everything is gathered. -/
  | readyToCommit
  /-- Given up. -/
  | aborted
  /-- Published. -/
  | committed
  deriving DecidableEq, Repr

/-- One planned batch. -/
structure SnapshotBatch where
  requestId : String
  contextDigest : String
  /-- Its place among the batches of the session. -/
  batchIndex : ℕ
  /-- Its first token. -/
  logicalStart : ℕ
  /-- The token after its last. -/
  logicalEnd : ℕ
  chunkTokens : ℕ
  /-- The blocks that hold it. -/
  blockIds : List Block
  deriving DecidableEq, Repr

def SnapshotBatch.chunkCount (batch : SnapshotBatch) : ℕ :=
  (batch.logicalEnd - batch.logicalStart) / batch.chunkTokens

/-- What the planner answers to completed tokens. -/
structure SnapshotOffer where
  /-- Newly planned batches. -/
  batches : List SnapshotBatch := []
  /-- The session was given up. -/
  aborted : Bool := false
  /-- The batches handed back then. -/
  releaseBatches : List SnapshotBatch := []
  deriving DecidableEq, Repr

/-- A session of the planner. -/
structure Session where
  requestId : String
  contextDigest : String
  spanTokens : ℕ
  /-- Where it stands. -/
  state : SnapshotState := .active
  /-- The first token not planned yet. -/
  nextToken : ℕ := 0
  nextBatchIndex : ℕ := 0
  /-- Batches planned and not gathered yet, by index. -/
  pending : Dict ℕ SnapshotBatch := .empty

/-- What the planner has counted. -/
structure Counters where
  /-- Sessions begun. -/
  admitted : ℕ := 0
  /-- Requests turned away because another session has their digest. -/
  duplicateSuppressed : ℕ := 0
  /-- Requests turned away because no session was free. -/
  capacitySuppressed : ℕ := 0
  /-- Sessions given up for want of room. -/
  abortedBackpressure : ℕ := 0
  /-- Sessions given up because blocks could not be mapped. -/
  abortedMapping : ℕ := 0
  /-- Sessions given up by their caller. -/
  abortedExplicit : ℕ := 0
  batchesEmitted : ℕ := 0
  batchesCompleted : ℕ := 0
  /-- Sessions published. -/
  committed : ℕ := 0
  deriving DecidableEq, Repr

/-- The planner. -/
structure Coordinator where
  /-- Live sessions by request. -/
  sessions : Dict String Session := .empty
  /-- The request each digest belongs to. -/
  digestOwner : Dict String String := .empty
  counters : Counters := {}

/-- Batches pending over all sessions. -/
def Coordinator.inflightBatches (c : Coordinator) : ℕ := c.sessions.total fun session => session.pending.size

/-- An answer of the planner. -/
inductive Answer
  /-- Whether the request has a session to feed. -/
  | begun (accepted : Bool)
  /-- The answer to completed tokens. -/
  | offer (offer : SnapshotOffer)
  /-- Whether the session is ready with this batch. -/
  | completed (ready : Bool)
  /-- The batches handed back. -/
  | released (batches : List SnapshotBatch)
  /-- The session is published. -/
  | committed
  /-- A refusal. -/
  | raised (message : String)
  /-- The mapper was interrupted. -/
  | interrupted
  deriving DecidableEq, Repr

/-- Drop a session, and its digest if it is the owner. -/
def Coordinator.retire (c : Coordinator) (session : Session) : Coordinator :=
  { c with
    sessions := c.sessions.erase session.requestId
    digestOwner :=
      if c.digestOwner.get? session.contextDigest = some session.requestId then
        c.digestOwner.erase session.contextDigest
      else c.digestOwner }

/-- Begin a session, unless the request has one, its digest is owned or no session is free. -/
def Coordinator.begin (limits : Limits) (c : Coordinator) (requestId contextDigest : String) (spanTokens : ℤ) :
    Coordinator × Answer :=
  if requestId = "" ∨ contextDigest = "" then (c, .raised "request_id and context_digest are required")
  else if spanTokens ≤ 0 ∨ spanTokens % limits.chunkTokens ≠ 0 then
    (c, .raised "span_tokens must be a positive chunk multiple")
  else
    match c.sessions.get? requestId with
    | some existing =>
      if existing.contextDigest ≠ contextDigest ∨ (existing.spanTokens : ℤ) ≠ spanTokens then
        (c, .raised "request_id already owns a different snapshot")
      else (c, .begun (existing.state = .active ∨ existing.state = .readyToCommit))
    | none =>
      if contextDigest ∈ c.digestOwner.keys then
        ({ c with counters.duplicateSuppressed := c.counters.duplicateSuppressed + 1 }, .begun false)
      else if limits.maxSessions ≤ c.sessions.size then
        ({ c with counters.capacitySuppressed := c.counters.capacitySuppressed + 1 }, .begun false)
      else
        ({ sessions := c.sessions.set requestId
            { requestId := requestId, contextDigest := contextDigest, spanTokens := spanTokens.toNat }
           digestOwner := c.digestOwner.set contextDigest requestId
           counters := { c.counters with admitted := c.counters.admitted + 1 } },
          .begun true)

/-- How mapping a new range ends. -/
inductive Mapped
  | parts (parts : List (ℕ × ℕ × List Block))
  /-- Some part has no valid blocks. -/
  | failed
  /-- The mapper was interrupted. -/
  | interrupted
  deriving DecidableEq, Repr

/-- Map a new range part by part, each a full batch except the last. -/
def mapParts (batchTokens : ℕ) (mapper : ℕ → ℕ → Mapping) (completeEnd : ℕ) : ℕ → ℕ → Mapped
  | 0, _ => .parts []
  | turns + 1, cursor =>
    if cursor < completeEnd then
      let logicalEnd := min (cursor + batchTokens) completeEnd
      match mapper cursor logicalEnd with
      | .interrupts => .interrupted
      | .fails => .failed
      | .blocks blocks =>
        if blocks = [] ∨ ¬blocks.Nodup ∨ blocks.any (fun block => !block.valid) then .failed
        else
          match mapParts batchTokens mapper completeEnd turns logicalEnd with
          | .parts parts => .parts ((cursor, logicalEnd, blocks) :: parts)
          | .failed => .failed
          | .interrupted => .interrupted
    else .parts []

/-- The batch for a mapped part. -/
def Session.batch (limits : Limits) (session : Session) (part : ℕ × ℕ × List Block) : SnapshotBatch where
  requestId := session.requestId
  contextDigest := session.contextDigest
  batchIndex := session.nextBatchIndex
  logicalStart := part.1
  logicalEnd := part.2.1
  chunkTokens := limits.chunkTokens
  blockIds := part.2.2

/-- A batch becomes pending. -/
def Session.push (session : Session) (batch : SnapshotBatch) : Session :=
  { session with
    pending := session.pending.set batch.batchIndex batch
    nextBatchIndex := session.nextBatchIndex + 1 }

/-- Plan a batch for each mapped part. -/
def emit (limits : Limits) : Session → List (ℕ × ℕ × List Block) → Session × List SnapshotBatch
  | session, [] => (session, [])
  | session, part :: parts =>
    let batch := session.batch limits part
    let rest := emit limits (session.push batch) parts
    (rest.1, batch :: rest.2)

/-- Give a session up with its pending batches handed back. -/
def Coordinator.giveUp (c : Coordinator) (session : Session) (counters : Counters) : Coordinator × Answer :=
  ({ c with counters := counters }.retire { session with state := .aborted, pending := .empty },
    .offer { aborted := true, releaseBatches := session.pending.values })

/-- Where the whole chunks completed so far end. -/
def completeEnd (limits : Limits) (session : Session) (completedTokens : ℤ) : ℕ :=
  let reached := min completedTokens.toNat session.spanTokens
  reached - reached % limits.chunkTokens

/-- Batches that the tokens up to an end need. -/
def required (limits : Limits) (session : Session) (stop : ℕ) : ℕ :=
  (stop - session.nextToken + limits.batchTokens - 1) / limits.batchTokens

/-- Plan what has been completed since the last time. -/
def Coordinator.offerCompleted (limits : Limits) (c : Coordinator) (requestId : String) (completedTokens : ℤ)
    (mapper : ℕ → ℕ → Mapping) : Coordinator × Answer :=
  match c.sessions.get? requestId with
  | none => (c, .raised "unknown snapshot request")
  | some session =>
    if session.state ≠ .active then (c, .offer {})
    else if completedTokens < session.nextToken then (c, .raised "completed_tokens must be monotonic")
    else
      let stop := completeEnd limits session completedTokens
      if stop ≤ session.nextToken then (c, .offer {})
      else if limits.maxInflightBatches < c.inflightBatches + required limits session stop then
        c.giveUp session { c.counters with abortedBackpressure := c.counters.abortedBackpressure + 1 }
      else
        match mapParts limits.batchTokens mapper stop (stop - session.nextToken) session.nextToken with
        | .interrupted => (c, .interrupted)
        | .failed => c.giveUp session { c.counters with abortedMapping := c.counters.abortedMapping + 1 }
        | .parts parts =>
          let emitted := emit limits session parts
          ({ c with
              sessions := c.sessions.set requestId { emitted.1 with nextToken := stop }
              counters.batchesEmitted := c.counters.batchesEmitted + emitted.2.length },
            .offer { batches := emitted.2 })

/-- A batch is no longer pending. -/
def Session.drop (session : Session) (index : ℕ) (ready : Bool) : Session :=
  { session with
    pending := session.pending.erase index
    state := if ready then .readyToCommit else session.state }

/-- A pending batch has been gathered. -/
def Coordinator.completeBatch (c : Coordinator) (requestId : String) (batchIndex : ℤ) : Coordinator × Answer :=
  match c.sessions.get? requestId with
  | none => (c, .raised "unknown snapshot request")
  | some session =>
    if 0 ≤ batchIndex ∧ batchIndex.toNat ∈ session.pending.keys then
      let ready :=
        decide (session.nextToken = session.spanTokens ∧ (session.pending.erase batchIndex.toNat).size = 0)
      ({ c with
          sessions := c.sessions.set requestId (session.drop batchIndex.toNat ready)
          counters.batchesCompleted := c.counters.batchesCompleted + 1 },
        .completed ready)
    else (c, .raised "unknown or already completed snapshot batch")

/-- Give a session up. -/
def Coordinator.abort (c : Coordinator) (requestId : String) : Coordinator × Answer :=
  match c.sessions.get? requestId with
  | none => (c, .released [])
  | some session =>
    ({ c with counters.abortedExplicit := c.counters.abortedExplicit + 1 }.retire
        { session with state := .aborted, pending := .empty },
      .released session.pending.values)

/-- Publish a session that is ready. -/
def Coordinator.commit (c : Coordinator) (requestId : String) : Coordinator × Answer :=
  match c.sessions.get? requestId with
  | none => (c, .raised "unknown snapshot request")
  | some session =>
    if session.state ≠ .readyToCommit then (c, .raised "snapshot is not ready to commit")
    else
      ({ c with counters.committed := c.counters.committed + 1 }.retire { session with state := .committed },
        .committed)

/-- A call of the planner. -/
inductive Call
  | begin (requestId contextDigest : String) (spanTokens : ℤ)
  | offerCompleted (requestId : String) (completedTokens : ℤ) (mapper : ℕ → ℕ → Mapping)
  /-- Report a gathered batch. -/
  | completeBatch (requestId : String) (batchIndex : ℤ)
  /-- Give a session up. -/
  | abort (requestId : String)
  /-- Publish a session. -/
  | commit (requestId : String)

/-- The request a call is about. -/
def Call.request : Call → String
  | .begin requestId .. => requestId
  | .offerCompleted requestId .. => requestId
  | .completeBatch requestId .. => requestId
  | .abort requestId => requestId
  | .commit requestId => requestId

def Coordinator.answer (limits : Limits) (c : Coordinator) : Call → Coordinator × Answer
  | .begin requestId contextDigest spanTokens => c.begin limits requestId contextDigest spanTokens
  | .offerCompleted requestId completedTokens mapper => c.offerCompleted limits requestId completedTokens mapper
  | .completeBatch requestId batchIndex => c.completeBatch requestId batchIndex
  | .abort requestId => c.abort requestId
  | .commit requestId => c.commit requestId

/-- How a session ended. -/
inductive Ending
  /-- Given up, with these batches handed back. -/
  | aborted (released : List SnapshotBatch)
  /-- Published. -/
  | committed
  deriving DecidableEq, Repr

/-- One session as its callers have seen it. -/
structure Life where
  /-- The request it was begun for. -/
  request : String
  /-- The digest it was begun with. -/
  digest : String
  /-- The tokens it was to snapshot. -/
  span : ℕ
  /-- The batches answered, the first one first. -/
  emitted : List SnapshotBatch := []
  /-- The batches reported as gathered. -/
  completed : List ℕ := []
  /-- How often a report was answered with ready. -/
  readies : ℕ := 0
  deriving DecidableEq, Repr

/-- Batches answered and not reported as gathered. -/
def Life.outstanding (life : Life) : List SnapshotBatch :=
  life.emitted.filter fun batch => decide (batch.batchIndex ∉ life.completed)

/-- More batches are answered. -/
def Life.extend (life : Life) (batches : List SnapshotBatch) : Life := { life with emitted := life.emitted ++ batches }

/-- A batch is reported as gathered. -/
def Life.gather (life : Life) (index : ℕ) (ready : Bool) : Life :=
  { life with
    completed := life.completed ++ [index]
    readies := life.readies + if ready then 1 else 0 }

/-- The planner with what its callers have seen. -/
structure History where
  /-- The planner. -/
  coordinator : Coordinator := {}
  /-- The session each request has now. -/
  live : Dict String Life := .empty
  /-- The sessions that have ended, and how. -/
  past : List (Life × Ending) := []

/-- A request's session has ended. -/
def History.close (h : History) (life : Life) (ending : Ending) : History :=
  { h with live := h.live.erase life.request, past := h.past ++ [(life, ending)] }

/-- What callers learn from an answer. -/
def History.note (h : History) (call : Call) (answer : Answer) : History :=
  match h.live.get? call.request with
  | none =>
    match call, answer with
    | .begin requestId contextDigest spanTokens, .begun true =>
      { h with
        live := h.live.set requestId { request := requestId, digest := contextDigest, span := spanTokens.toNat } }
    | _, _ => h
  | some life =>
    match call, answer with
    | .offerCompleted requestId _ _, .offer offer =>
      if offer.aborted then h.close life (.aborted offer.releaseBatches)
      else { h with live := h.live.set requestId (life.extend offer.batches) }
    | .completeBatch requestId batchIndex, .completed ready =>
      { h with live := h.live.set requestId (life.gather batchIndex.toNat ready) }
    | .abort _, .released batches => h.close life (.aborted batches)
    | .commit _, .committed => h.close life .committed
    | _, _ => h

/-- A caller calls and notes the answer. -/
def History.step (limits : Limits) (h : History) (call : Call) : Option History :=
  let answered := h.coordinator.answer limits call
  some ({ h with coordinator := answered.1 }.note call answered.2)

end SparkRing.Planner
