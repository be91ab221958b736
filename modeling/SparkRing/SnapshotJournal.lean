import SparkRing.OrderedDict
import SparkRing.TransitionSystem

/-!
# Snapshot journals and their single writer thread

Caller threads open journals, lend READY views to the writer, commit and abort; one
writer thread translates a view chunk by chunk and appends the chunks to the journal's
store transaction. A journal's lock is held through a submission, a commit and an
abort of the store transaction, and is taken for a moment around every chunk. The
store transaction records what reaches it.
-/

namespace SparkRing.Snapshot

open OrderedDict

def chunkTokens : ℕ := 256

/-- State of a journal. -/
inductive JournalState where
  | open
  | committed
  | aborted
  deriving DecidableEq

/-- A range of tokens; a chunk or batch covers some. -/
structure TokenRange where
  /-- First token. -/
  start : ℕ
  /-- Token behind the last one. -/
  stop : ℕ
  /-- The range is not empty. -/
  ordered : start < stop
  deriving DecidableEq

/-- A batch as a caller passes it. -/
structure SnapshotBatch where
  /-- Request of the batch. -/
  requestId : String
  contextDigest : String
  /-- Place in the sequence of batches. -/
  batchIndex : ℕ
  /-- First token. -/
  logicalStart : ℕ
  /-- Token behind the last one. -/
  logicalEnd : ℕ
  chunkTokens : ℕ
  deriving DecidableEq

/-- A borrowed view of the ring. -/
structure SnapshotView where
  /-- Number of the view. -/
  view : ℕ
  /-- First token of its ticket. -/
  logicalStart : ℕ
  deriving DecidableEq

/-- What reaches the store transaction of a journal. -/
inductive StoreEvent where
  | appendBegins (chunk : TokenRange)
  /-- The append ended well. -/
  | appended (chunk : TokenRange)
  | appendRaised (chunk : TokenRange)
  | commitBegins
  /-- The commit ended well. -/
  | committed
  | commitRaised
  | abortBegins
  | abortEnded
  deriving DecidableEq

/-- What the holder of a journal's lock is in the middle of. -/
inductive Hold where
  /-- A submission that registered its completion and is about to enqueue. -/
  | submitting (completion : ℕ) (batch : SnapshotBatch) (view : SnapshotView)
  /-- The store's commit runs. -/
  | committing
  /-- The store's abort runs, in the writer thread or in a caller's. -/
  | aborting (byWriter : Bool)
  deriving DecidableEq

/-- A journal. -/
structure Journal where
  /-- Request that owns it. -/
  requestId : String
  contextDigest : String
  /-- Tokens of the context. -/
  spanTokens : ℕ
  state : JournalState
  nextBatchIndex : ℕ
  nextSubmitted : ℕ
  appendedTokens : ℕ
  /-- Completions of submitted batches, in the order they were submitted. -/
  pending : List ℕ
  /-- The store's abort was called. -/
  abortFinalized : Bool
  /-- What the lock is held for beyond a moment. -/
  hold : Option Hold
  /-- What reached the store transaction, the last event first. -/
  store : List StoreEvent
  deriving DecidableEq

namespace Journal

/-- A new journal. -/
def begin (requestId contextDigest : String) (spanTokens : ℕ) : Journal :=
  ⟨requestId, contextDigest, spanTokens, .open, 0, 0, 0, [], false, none, []⟩

def record (x : Journal) (event : StoreEvent) : Journal := { x with store := event :: x.store }

/-- The store's abort starts, unless it was called or a completion is pending. -/
def finalizeAbort (x : Journal) (byWriter : Bool) : Journal :=
  if x.pending ≠ [] ∨ x.abortFinalized = true then x
  else { x with hold := some (.aborting byWriter), store := .abortBegins :: x.store }

/-- Abort; the store's abort waits for the last completion. -/
def abortLocked (x : Journal) : Journal := ({ x with state := .aborted } : Journal).finalizeAbort false

/-- The batch continues the journal and the view holds its rows. -/
def validSubmission (x : Journal) (batch : SnapshotBatch) (view : SnapshotView) (rows : Option ℕ) : Bool :=
  decide (batch.requestId = x.requestId ∧ batch.contextDigest = x.contextDigest ∧
    batch.batchIndex = x.nextBatchIndex ∧ batch.chunkTokens = chunkTokens ∧
    batch.logicalStart = x.nextSubmitted ∧ batch.logicalStart < batch.logicalEnd ∧
    batch.logicalEnd ≤ x.spanTokens ∧ view.logicalStart = batch.logicalStart) &&
  match rows with
  | none => false
  | some tokens => decide (batch.logicalStart + tokens = batch.logicalEnd)

/-- The journal may commit. -/
def covered (x : Journal) : Bool :=
  decide (x.pending = [] ∧ x.nextSubmitted = x.spanTokens ∧ x.appendedTokens = x.spanTokens)

/-- A completion leaves a journal; the last one of an aborted journal starts the store's abort. -/
def completionDone (x : Journal) (completion : ℕ) : Journal :=
  let x : Journal := { x with pending := x.pending.erase completion }
  if x.state = .aborted then x.finalizeAbort true else x

end Journal

/-- A batch the writer translates. -/
structure Task where
  /-- Journal of the batch. -/
  journal : ℕ
  completion : ℕ
  /-- First token. -/
  start : ℕ
  /-- Token behind the last one. -/
  stop : ℕ
  view : ℕ
  deriving DecidableEq

/-- Where the writer thread is. -/
inductive Writer where
  /-- It waits for a task. -/
  | idle
  /-- It took a task. -/
  | starting (task : Task)
  /-- It reads the view for the next chunk. -/
  | reading (task : Task) (expected : ℕ)
  | checking (task : Task) (expected : ℕ) (chunk : TokenRange)
  | appending (task : Task) (chunk : TokenRange)
  /-- It notes the appended tokens. -/
  | noting (task : Task) (expected : ℕ)
  /-- The translation or an append raised. -/
  | failing (task : Task)
  /-- The task ended; its completion leaves the journal. -/
  | ending (task : Task) (ok : Bool)
  /-- The store's abort runs for the last completion. -/
  | finalizing (task : Task) (ok : Bool)
  /-- The writer's capacity is returned. -/
  | releasing (task : Task) (ok : Bool)
  /-- The completion is about to be resolved. -/
  | resolving (task : Task) (ok : Bool)
  deriving DecidableEq

def Writer.task? : Writer → Option Task
  | .idle => none
  | .starting task | .reading task _ | .checking task _ _ | .appending task _ | .noting task _ | .failing task
  | .ending task _ | .finalizing task _ | .releasing task _ | .resolving task _ => some task

/-- The writer may read the view of its task. -/
def Writer.readsView : Writer → Bool
  | .starting _ | .reading .. | .checking .. | .appending .. | .noting .. | .failing _ => true
  | _ => false

/-- The part of the shutdown that closed the writer. -/
inductive Closing where
  /-- The writer is open. -/
  | open
  /-- Journals left to abort. -/
  | aborting (rest : List ℕ)
  /-- The store's abort of a journal runs in the shutdown's thread. -/
  | waiting (journal : ℕ) (rest : List ℕ)
  /-- Waiting for the writer thread. -/
  | draining
  | returned
  deriving DecidableEq

/-- Callers, journals and the writer thread. -/
structure State where
  journals : ℕ → Option Journal
  /-- Journals so far. -/
  count : ℕ
  /-- The journal of a request. -/
  transactions : Dict String ℕ
  /-- Tasks the writer has not taken, the next one first. -/
  queue : List Task
  writer : Writer
  /-- Batches the writer still accepts. -/
  capacity : ℕ
  /-- The shutdown, which closes the writer when it starts. -/
  closing : Closing
  nextCompletion : ℕ
  /-- Completions that submissions returned, in order. -/
  returned : List ℕ
  /-- Completions of submissions that raised. -/
  raised : List ℕ
  /-- Completions that were resolved, in order, with their outcome. -/
  resolved : List (ℕ × Bool)
  /-- Later shutdowns that found the writer closed and returned. -/
  shutdownsBeside : ℕ

/-- A writer that accepts a number of batches. -/
def State.init (maxPendingBatches : ℕ) : State where
  journals := fun _ => none
  count := 0
  transactions := .empty
  queue := []
  writer := .idle
  capacity := maxPendingBatches
  closing := .open
  nextCompletion := 0
  returned := []
  raised := []
  resolved := []
  shutdownsBeside := 0

/-- What the translator or the store does next for the writer. -/
inductive Outcome where
  /-- The translator yields a chunk. -/
  | chunk (range : TokenRange)
  /-- The translator is exhausted, or the store's call returns. -/
  | returns
  /-- The translator or the store's append raises. -/
  | raises
  deriving DecidableEq

/-- One section of a thread. A call that only raises changes nothing and is no step. -/
inductive Act where
  /-- A caller opens a journal. -/
  | begin (requestId contextDigest : String) (spanTokens : ℕ)
  /-- A caller submits a batch; the translator counts the rows of its view. -/
  | submit (journal : ℕ) (batch : SnapshotBatch) (view : SnapshotView) (rows : Option ℕ)
  /-- A submission enqueues its task, unless the executor raises. -/
  | enqueue (journal : ℕ) (raises : Bool)
  /-- A caller starts the store's commit. -/
  | commit (journal : ℕ)
  | commitEnds (journal : ℕ) (ok : Bool)
  /-- A caller that committed forgets the journal. -/
  | retire (journal : ℕ)
  | abort (journal : ℕ)
  /-- The store's abort ends in the thread of a caller. -/
  | abortEnds (journal : ℕ)
  /-- A caller shuts the writer down. -/
  | shutdown
  | shutdownGoesOn
  /-- The writer takes a task. -/
  | take
  /-- The writer goes on. -/
  | work (outcome : Outcome)
  deriving DecidableEq

namespace State

variable (s : State)

def put (j : ℕ) (x : Journal) : State := { s with journals := Function.update s.journals j (some x) }

/-- A journal whose lock is free. -/
def unlocked (j : ℕ) : Option Journal := (s.journals j).filter fun x => decide (x.hold = none)

/-- Forget a journal that its request still owns. -/
def retire (j : ℕ) (requestId : String) : State :=
  if s.transactions.get? requestId = some j then { s with transactions := s.transactions.erase requestId } else s

/-- The store's abort of a journal returned. -/
def finishAbort (j : ℕ) (x : Journal) : State :=
  (s.put j { x with abortFinalized := true, hold := none, store := .abortEnded :: x.store }).retire j x.requestId

/-- A journal for a request that owns none. -/
def beginContext (requestId contextDigest : String) (spanTokens : ℕ) : Option State :=
  if requestId = "" ∨ spanTokens = 0 ∨ spanTokens % chunkTokens ≠ 0 ∨ s.closing ≠ .open ∨
      requestId ∈ s.transactions.keys then none
  else some { s.put s.count (.begin requestId contextDigest spanTokens) with
    count := s.count + 1
    transactions := s.transactions.set requestId s.count }

/-- Validate a batch and register its completion, or abort. -/
def submitReady (j : ℕ) (batch : SnapshotBatch) (view : SnapshotView) (rows : Option ℕ) : Option State :=
  (s.unlocked j).bind fun x =>
    if x.state ≠ .open then none
    else if x.validSubmission batch view rows then
      some { s.put j { x with
          pending := x.pending ++ [s.nextCompletion]
          nextBatchIndex := x.nextBatchIndex + 1
          nextSubmitted := batch.logicalEnd
          hold := some (.submitting s.nextCompletion batch view) } with
        nextCompletion := s.nextCompletion + 1 }
    else some (s.put j x.abortLocked)

/-- Enqueue the task of a registered completion, or forget the completion and abort. -/
def enqueue (j : ℕ) (raises : Bool) : Option State :=
  (s.journals j).bind fun x =>
    match x.hold with
    | some (.submitting completion batch view) =>
      if s.closing ≠ .open ∨ s.capacity = 0 ∨ raises = true then
        some { s.put j ({ x with pending := x.pending.erase completion, hold := none } : Journal).abortLocked with
          raised := completion :: s.raised }
      else
        some { s.put j { x with hold := none } with
          capacity := s.capacity - 1
          queue := s.queue ++ [⟨j, completion, batch.logicalStart, batch.logicalEnd, view.view⟩]
          returned := s.returned ++ [completion] }
    | _ => none

/-- Start the store's commit. -/
def commitManifest (j : ℕ) : Option State :=
  (s.unlocked j).bind fun x =>
    if x.state = .open ∧ x.covered then
      some (s.put j { x with hold := some .committing, store := .commitBegins :: x.store })
    else none

/-- The store's commit returned or raised. -/
def commitEnds (j : ℕ) (ok : Bool) : Option State :=
  (s.journals j).bind fun x =>
    if x.hold = some .committing then
      some (s.put j (if ok then { x with state := .committed, hold := none, store := .committed :: x.store }
        else { x with hold := none, store := .commitRaised :: x.store }))
    else none

/-- Abort an open journal. -/
def abort (j : ℕ) : Option State :=
  (s.unlocked j).bind fun x => if x.state = .open then some (s.put j x.abortLocked) else none

/-- The store's abort returned to a caller. -/
def abortEnds (j : ℕ) : Option State :=
  (s.journals j).bind fun x => if x.hold = some (.aborting false) then some (s.finishAbort j x) else none

/-- The shutdown takes a journal of its list, or waits for the writer thread. -/
def shutdownGoesOn : Option State :=
  match s.closing with
  | .open | .returned => none
  | .aborting [] => some { s with closing := .draining }
  | .aborting (j :: rest) =>
    (s.unlocked j).bind fun x =>
      if x.state = .open then
        let x := x.abortLocked
        some { s.put j x with closing := if x.hold = none then .aborting rest else .waiting j rest }
      else some { s with closing := .aborting rest }
  | .waiting j rest =>
    (s.journals j).bind fun x =>
      if x.abortFinalized = true ∧ x.hold = none then some { s with closing := .aborting rest } else none
  | .draining => if s.queue = [] ∧ s.writer = .idle then some { s with closing := .returned } else none

/-- The writer takes the next task. -/
def take : Option State :=
  match s.writer, s.queue with
  | .idle, task :: rest => some { s with writer := .starting task, queue := rest }
  | _, _ => none

/-- The next section of the writer thread. -/
def work (outcome : Outcome) : Option State :=
  match s.writer with
  | .idle => none
  | .starting task =>
    (s.unlocked task.journal).map fun x =>
      if x.state = .aborted then { s with writer := .ending task true }
      else { s with writer := .reading task task.start }
  | .reading task expected =>
    match outcome with
    | .chunk range => some { s with writer := .checking task expected range }
    | .returns => some { s with writer := if expected = task.stop then .ending task true else .failing task }
    | .raises => some { s with writer := .failing task }
  | .checking task expected chunk =>
    (s.unlocked task.journal).map fun x =>
      if x.state = .aborted then { s with writer := .ending task true }
      else if chunk.start ≠ expected ∨ task.stop < chunk.stop then { s with writer := .failing task }
      else { s.put task.journal (x.record (.appendBegins chunk)) with writer := .appending task chunk }
  | .appending task chunk =>
    (s.journals task.journal).bind fun x =>
      match outcome with
      | .chunk _ => none
      | .returns => some { s.put task.journal (x.record (.appended chunk)) with writer := .noting task chunk.stop }
      | .raises => some { s.put task.journal (x.record (.appendRaised chunk)) with writer := .failing task }
  | .noting task expected =>
    (s.unlocked task.journal).map fun x =>
      { s.put task.journal (if x.state = .open then { x with appendedTokens := expected } else x) with
        writer := .reading task expected }
  | .failing task =>
    (s.unlocked task.journal).map fun x =>
      { s.put task.journal (if x.state = .open then x.abortLocked else x) with writer := .ending task false }
  | .ending task ok =>
    (s.unlocked task.journal).map fun x =>
      let x := x.completionDone task.completion
      { s.put task.journal x with
        writer := if x.hold = none then .releasing task ok else .finalizing task ok }
  | .finalizing task ok =>
    (s.journals task.journal).map fun x =>
      { s.finishAbort task.journal x with writer := .releasing task (ok && decide (outcome ≠ .raises)) }
  | .releasing task ok => some { s with writer := .resolving task ok, capacity := s.capacity + 1 }
  | .resolving task ok => some { s with writer := .idle, resolved := s.resolved ++ [(task.completion, ok)] }

end State

/-- One section of a thread. -/
def step (s : State) : Act → Option State
  | .begin requestId contextDigest spanTokens => s.beginContext requestId contextDigest spanTokens
  | .submit j batch view rows => s.submitReady j batch view rows
  | .enqueue j raises => s.enqueue j raises
  | .commit j => s.commitManifest j
  | .commitEnds j ok => s.commitEnds j ok
  | .retire j => (s.journals j).bind fun x => if x.state = .committed then some (s.retire j x.requestId) else none
  | .abort j => s.abort j
  | .abortEnds j => s.abortEnds j
  | .shutdown =>
    if s.closing = .open then some { s with closing := .aborting s.transactions.values }
    else some { s with shutdownsBeside := s.shutdownsBeside + 1 }
  | .shutdownGoesOn => s.shutdownGoesOn
  | .take => s.take
  | .work outcome => s.work outcome

end SparkRing.Snapshot
