import SparkRing.OrderedDict
import SparkRing.ReplicaFrames

/-!
# The sender of buddy replication

A sender keeps the frames that no answer came for, within bounds, and spends the
credit of the receiver on chunks. A transaction whose frame is refused, or that does
not fit the bounds, stays local: nothing more of it is sent but its abort.
-/

namespace SparkRing.Replication

open OrderedDict

/-- The bounds of a sender. -/
structure SenderConfig where
  /-- The most frames without an answer. -/
  maxInflightFrames : ℕ
  /-- The most bytes without an answer. -/
  maxInflightBytes : ℕ
  /-- The most local-only transactions remembered. -/
  recentLocalOnly : ℕ
  /-- Every bound is positive. -/
  positive : 0 < maxInflightFrames ∧ 0 < maxInflightBytes ∧ 0 < recentLocalOnly

/-- A frame on the wire: its bytes, and the frame that the other side decodes from them. -/
structure Wire where
  frame : Frame
  encoded : Bytes
  deriving DecidableEq

/-- The state of a sender. -/
structure Sender where
  /-- The credit left for bytes of chunks. -/
  availableBytes : ℕ := 0
  /-- The credit left for chunks. -/
  availableFrames : ℕ := 0
  /-- The number of the newest credit. -/
  lastCreditSequence : ℤ := -1
  /-- The frames without an answer, by transaction and number. -/
  inflight : Dict (Key × ℕ) Wire := Dict.empty
  /-- The remembered local-only transactions. -/
  localOnly : Dict Key Unit := Dict.empty
  /-- The aborts to send when there is time. -/
  bestEffortAborts : Dict Key Bytes := Dict.empty

/-- The bytes without an answer. -/
def Sender.inflightBytes (s : Sender) : ℕ := s.inflight.total fun wire => wire.encoded.length

/-- What applying a frame comes to. -/
inductive Applied
  /-- It is applied. -/
  | done
  /-- A protocol error is raised. -/
  | raised (message : String)
  deriving DecidableEq

/-- Take the receiver's credit where it is newer than the newest one. -/
def Sender.applyCredit (s : Sender) (frame : Frame) : Sender × Applied :=
  match frame.body with
  | .credit availableBytes availableFrames =>
    if (frame.sequence : ℤ) ≤ s.lastCreditSequence then (s, .done)
    else
      ({ s with
        lastCreditSequence := frame.sequence
        availableBytes := availableBytes
        availableFrames := availableFrames }, .done)
  | _ => (s, .raised "expected CREDIT frame")

/-- The abort of a local-only transaction. -/
def abortFrame (key : Key) : Frame := ⟨key, 2 ^ 63 - 1, .abort "sender degraded to local-only"⟩

/-- A transaction stays local: its frames are forgotten and its abort is kept. -/
def Sender.markLocalOnly (config : SenderConfig) (s : Sender) (key : Key) : Sender × Applied :=
  let localOnly := (s.localOnly.set key ()).moveToEnd key
  let marked : Sender :=
    { s with
      localOnly := Dict.trimOldest config.recentLocalOnly localOnly.size localOnly
      inflight := s.inflight.filter fun item => decide (item.1.1 ≠ key) }
  match (abortFrame key).encode with
  | .error message => (marked, .raised message)
  | .ok encoded => ({ marked with bestEffortAborts := (s.bestEffortAborts.set key encoded).moveToEnd key }, .done)

/-- What an offer comes to. -/
inductive Offered
  /-- The bytes to send. -/
  | emitted (wire : Wire)
  /-- Nothing is sent. -/
  | withheld
  /-- A protocol error is raised. -/
  | raised (message : String)
  deriving DecidableEq

/-- A transaction stays local, and nothing is sent. -/
def Sender.degrade (config : SenderConfig) (s : Sender) (key : Key) : Sender × Offered :=
  match s.markLocalOnly config key with
  | (s, .done) => (s, .withheld)
  | (s, .raised message) => (s, .raised message)

def Frame.isTransaction (frame : Frame) : Bool :=
  match frame.body with
  | .ack .. | .credit .. => false
  | _ => true

def Frame.isAbort (frame : Frame) : Bool :=
  match frame.body with
  | .abort _ => true
  | _ => false

def Frame.isPutChunk (frame : Frame) : Bool :=
  match frame.body with
  | .putChunk .. => true
  | _ => false

/-- A frame is sent within the bounds, a chunk within the credit. A frame that is in flight
already is sent again as it was. -/
def Sender.offer (config : SenderConfig) (s : Sender) (frame : Frame) : Sender × Offered :=
  if !frame.isTransaction then (s, .raised "sender accepts only transaction frames")
  else if frame.key ∈ s.localOnly.keys ∧ !frame.isAbort then (s, .withheld)
  else
    match frame.encode with
    | .error message => (s, .raised message)
    | .ok encoded =>
      match s.inflight.get? (frame.key, frame.sequence) with
      | some existing => if existing.encoded = encoded then (s, .emitted existing) else s.degrade config frame.key
      | none =>
        if config.maxInflightFrames < s.inflight.size + 1 ∨ config.maxInflightBytes < s.inflightBytes + encoded.length then
          s.degrade config frame.key
        else if frame.isPutChunk ∧ (s.availableFrames < 1 ∨ s.availableBytes < frame.payload.length) then
          s.degrade config frame.key
        else
          let wire : Wire := ⟨frame, encoded⟩
          ({ s with
            availableFrames := if frame.isPutChunk then s.availableFrames - 1 else s.availableFrames
            availableBytes := if frame.isPutChunk then s.availableBytes - frame.payload.length else s.availableBytes
            inflight := s.inflight.set (frame.key, frame.sequence) wire }, .emitted wire)

/-- A frame got its answer; a refused one makes its transaction local-only. -/
def Sender.acknowledge (config : SenderConfig) (s : Sender) (frame : Frame) : Sender × Applied :=
  match frame.body with
  | .ack ackSequence status =>
    if (frame.key, ackSequence) ∈ s.inflight.keys then
      let s : Sender := { s with inflight := s.inflight.erase (frame.key, ackSequence) }
      match status with
      | .rejected | .aborted => s.markLocalOnly config frame.key
      | _ => (s, .done)
    else (s, .done)
  | _ => (s, .raised "expected ACK frame")

/-- The frames without an answer, to be sent again. -/
def Sender.retransmit (s : Sender) : List Wire := s.inflight.values

end SparkRing.Replication
