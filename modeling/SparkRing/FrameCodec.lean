import SparkRing.FragmentedStream
import SparkRing.JsonText
import SparkRing.WireWords

/-!
# The wire codec of buddy replication

A frame is a prefix, a header in canonical JSON and a payload. Every kind of frame has its
fields, each with its check. A decoder takes frames from the front of a bounded buffer; a
commit record is canonical JSON on its own.
-/

namespace SparkRing.FrameCodec

open JsonText OrderedDict FragmentedStream

/-- What the codec raises. -/
inductive Failure
  | protocol (message : String)
  /-- A protocol error about the names of a header. -/
  | fields (name : String) (missing unexpected : List Text)
  /-- Another exception. -/
  | raises

/-- The kinds of frames. -/
inductive FrameType
  | begin
  | putChunk
  | commit
  | abort
  | ack
  | credit
  deriving DecidableEq

/-- The number of a kind. -/
def FrameType.number : FrameType → UInt8
  | .begin => 1
  | .putChunk => 2
  | .commit => 3
  | .abort => 4
  | .ack => 5
  | .credit => 6

/-- The kind of a number. -/
def FrameType.ofNumber (number : UInt8) : Option FrameType :=
  [FrameType.begin, .putChunk, .commit, .abort, .ack, .credit].find? fun frameType => frameType.number == number

/-- The name of a kind. -/
def FrameType.name : FrameType → String
  | .begin => "BEGIN"
  | .putChunk => "PUT_CHUNK"
  | .commit => "COMMIT"
  | .abort => "ABORT"
  | .ack => "ACK"
  | .credit => "CREDIT"

/-- The names of a header. -/
def FrameType.fields : FrameType → List String
  | .begin => ["transaction_id", "generation", "sequence", "context_digest", "identity_digest"]
  | .putChunk => ["transaction_id", "generation", "sequence", "chunk_index", "chunk_digest"]
  | .commit => ["transaction_id", "generation", "sequence", "manifest_digest", "chunk_count"]
  | .abort => ["transaction_id", "generation", "sequence", "reason"]
  | .ack => ["transaction_id", "generation", "sequence", "ack_sequence", "status"]
  | .credit => ["transaction_id", "generation", "sequence", "available_bytes", "available_frames"]

/-- Kinds without a payload. -/
def FrameType.emptyPayload (frameType : FrameType) : Bool := frameType ∈ [FrameType.begin, .abort, .ack, .credit]

/-- Kinds with a payload. -/
def FrameType.requiresPayload (frameType : FrameType) : Bool := frameType ∈ [FrameType.putChunk, .commit]

/-- A text of lowercase hexadecimal digits. -/
def isHex (length : ℕ) (characters : Text) : Bool :=
  characters.length == length && characters.all fun c => 48 ≤ c && c ≤ 57 || 97 ≤ c && c ≤ 102

/-- The bytes of a text in UTF-8; a half of a surrogate pair has none. -/
def utf8Length (characters : Text) : Option ℕ :=
  if characters.all fun c => decide (Scalar c) then
    some (characters.map fun c => if c < 128 then 1 else if c < 2048 then 2 else if c < 65536 then 3 else 4).sum
  else none

def ackStatuses : List Text := ["ok", "duplicate", "committed", "aborted", "rejected"].map text

/-- How a field of a header is checked. -/
inductive Check
  /-- Lowercase hexadecimal digits. -/
  | hex (length : ℕ)
  /-- A nonnegative integer. -/
  | natural
  | positive
  /-- A text of few bytes. -/
  | reason
  | status

/-- A nonnegative integer. -/
def isNonnegativeInt : Json → Bool
  | .int n => 0 ≤ n
  | _ => false

/-- Check a value; the message is that of the field. -/
def Check.problem (message : String) (value : Json) : Check → Option Failure
  | .hex length => match value with
    | .str characters => if isHex length characters then none else some (.protocol message)
    | _ => some (.protocol message)
  | .natural => if isNonnegativeInt value then none else some (.protocol message)
  | .positive => match value with
    | .int n => if 0 < n then none else some (.protocol message)
    | _ => some (.protocol message)
  | .reason => match value with
    | .str characters => match utf8Length characters with
      | none => some .raises
      | some bytes => if 256 < bytes then some (.protocol message) else none
    | _ => some (.protocol message)
  | .status => match value with
    | .str characters => if characters ∈ ackStatuses then none else some (.protocol message)
    | .arr _ => some .raises
    | .obj _ => some .raises
    | _ => some (.protocol message)

/-- A digest in a field. -/
def digest (name : String) : String × Check × String := (name, .hex 64, s!"{name} must be a lowercase SHA-256 digest")

/-- A nonnegative integer in a field. -/
def nonnegative (name : String) : String × Check × String := (name, .natural, s!"{name} must be a nonnegative integer")

/-- The checks of a header in their order, with their messages. -/
def FrameType.checks (frameType : FrameType) : List (String × Check × String) :=
  [("transaction_id", .hex 32, "transaction_id must be 32 lowercase hex characters"), nonnegative "generation", nonnegative "sequence"] ++
    match frameType with
    | .begin => [digest "context_digest", digest "identity_digest"]
    | .putChunk => [nonnegative "chunk_index", digest "chunk_digest"]
    | .commit => [digest "manifest_digest", ("chunk_count", .positive, "chunk_count must be a positive integer")]
    | .abort => [("reason", .reason, "reason must be a UTF-8 string of at most 256 bytes")]
    | .ack => [nonnegative "ack_sequence", ("status", .status, "invalid ACK status")]
    | .credit => [nonnegative "available_bytes", nonnegative "available_frames"]

/-- The value of a name. -/
def get (header : Dict Text Json) (name : String) : Json := (header.get? (text name)).getD .null

/-- The names of a dictionary are these. -/
def hasNames (header : Dict Text Json) (names : List String) : Bool :=
  header.keys.all (fun key => key ∈ names.map text) && names.all fun name => text name ∈ header.keys

/-- Names in their order. -/
def sorted (names : List Text) : List Text := names.insertionSort fun a b => ordered a b = true

/-- What is wrong with a header. -/
def validateHeader (frameType : FrameType) (header : Dict Text Json) : Option Failure :=
  if hasNames header frameType.fields then
    frameType.checks.findSome? fun check => check.2.1.problem check.2.2 (get header check.1)
  else
    some (.fields frameType.name (sorted ((frameType.fields.map text).filter (· ∉ header.keys)))
      (sorted (header.keys.filter (· ∉ frameType.fields.map text))))

/-- The longest header. -/
def maxHeaderBytes : ℕ := 2 ^ 20

/-- The longest payload. -/
def maxPayloadBytes : ℕ := 16 * 2 ^ 20

/-- What is wrong with a frame. -/
def postInit (frameType : FrameType) (header : Dict Text Json) (payload : Bytes) : Option Failure :=
  match validateHeader frameType header with
  | some failure => some failure
  | none =>
    if frameType.emptyPayload ∧ payload ≠ [] then some (.protocol s!"{frameType.name} must not carry a payload")
    else if frameType.requiresPayload ∧ payload = [] then some (.protocol s!"{frameType.name} requires a payload")
    else if maxPayloadBytes < payload.length then some (.protocol "frame payload exceeds protocol maximum")
    else none

/-- A frame. -/
structure Frame where
  /-- Its kind. -/
  frameType : FrameType
  header : Dict Text Json
  payload : Bytes
  /-- Nothing is wrong with it. -/
  valid : postInit frameType header payload = none

def Frame.make (frameType : FrameType) (header : Dict Text Json) (payload : Bytes) : Except Failure Frame :=
  match h : postInit frameType header payload with
  | some failure => .error failure
  | none => .ok ⟨frameType, header, payload, h⟩

/-- Frames of one kind with one payload and equal headers. -/
structure Frame.Same (frame other : Frame) : Prop where
  /-- The kind. -/
  frameType : frame.frameType = other.frameType
  /-- The header, whatever its order. -/
  header : ∀ name, frame.header.get? name = other.header.get? name
  payload : frame.payload = other.payload

variable (p : Interpreter)

def framePrefix (frameType : FrameType) (headerBytes payloadBytes : ℕ) : Bytes :=
  [83, 80, 82, 80, 1, frameType.number, 0, 0] ++ WireWords.put32 headerBytes ++ WireWords.put32 payloadBytes

/-- A frame on the wire. -/
def Frame.encode (frame : Frame) : Except Failure Bytes :=
  if frame.header.items.all fun field => p.writable field.2 then
    let encodedHeader := toBytes (dumps p (.obj frame.header.items))
    if maxHeaderBytes < encodedHeader.length then .error (.protocol "frame header exceeds protocol maximum")
    else .ok (framePrefix frame.frameType encodedHeader.length frame.payload.length ++ encodedHeader ++ frame.payload)
  else .error .raises

/-- The header and the kind of a frame are decoded. -/
def decodeFrame (rawType : UInt8) (encodedHeader payload : Bytes) : Except Failure Frame :=
  match loads p encodedHeader with
  | .error .malformed => .error (.protocol "invalid frame header JSON")
  | .error .raises => .error .raises
  | .ok (.obj fields) =>
    if encodedHeader ≠ toBytes (dumps p (.obj fields)) then .error (.protocol "frame header is not canonical JSON")
    else
      match FrameType.ofNumber rawType with
      | none => .error (.protocol "unknown frame type")
      | some frameType => Frame.make frameType (ofFields fields) payload
  | .ok _ => .error (.protocol "frame header must be a JSON object")

/-- The bounds of a decoder. -/
structure Bounds where
  maxFrameBytes : ℕ
  maxBufferBytes : ℕ
  prefixFits : 16 ≤ maxFrameBytes
  frameFits : maxFrameBytes ≤ maxBufferBytes

/-- The front of a buffer. -/
def nextFrame (b : Bounds) (buffer : Bytes) : Next Frame UInt8 Failure :=
  if buffer.length < 16 then .waits
  else
    let headerBytes := WireWords.get32 (buffer.drop 8)
    let payloadBytes := WireWords.get32 (buffer.drop 12)
    let total := 16 + headerBytes + payloadBytes
    if buffer.take 5 ≠ [83, 80, 82, 80, 1] ∨ (buffer.drop 6).take 2 ≠ [0, 0] then
      .fails (.protocol "invalid replication frame prefix") buffer
    else if maxHeaderBytes < headerBytes ∨ maxPayloadBytes < payloadBytes then
      .fails (.protocol "declared replication frame exceeds protocol maximum") buffer
    else if b.maxFrameBytes < total then .fails (.protocol "declared replication frame exceeds configured maximum") buffer
    else if buffer.length < total then .waits
    else
      match decodeFrame p ((buffer.drop 5).headD 0) ((buffer.drop 16).take headerBytes) ((buffer.take total).drop (16 + headerBytes)) with
      | .error failure => .fails failure (buffer.drop total)
      | .ok frame => .item frame (buffer.drop total)

def frameStreamDecoder (b : Bounds) : Decoder Frame UInt8 Failure where
  next := nextFrame p b
  limit := b.maxBufferBytes
  overflow := .protocol "replication receive buffer limit exceeded"

/-- The fields of a commit record. -/
def recordFields : List String := ["transaction_id", "generation", "context_digest", "chunk_digests"]

def commitRecord (transactionId generation contextDigest : Json) (chunkDigests : List Json) : List (Text × Json) :=
  [(text "transaction_id", transactionId), (text "generation", generation), (text "context_digest", contextDigest),
    (text "chunk_digests", .arr chunkDigests)]

/-- The header of a BEGIN with the fields that commit records share. -/
def beginHeader (transactionId generation contextDigest : Json) : Dict Text Json :=
  ofFields [(text "transaction_id", transactionId), (text "generation", generation), (text "sequence", .int 0),
    (text "context_digest", contextDigest), (text "identity_digest", .str (List.replicate 64 48))]

/-- A commit record on the wire. -/
def encodeCommitRecord (transactionId generation contextDigest : Json) (chunkDigests : List Json) : Except Failure Bytes :=
  if chunkDigests = [] then .error (.protocol "commit record requires at least one chunk")
  else
    match validateHeader .begin (beginHeader transactionId generation contextDigest) with
    | some failure => .error failure
    | none =>
      match chunkDigests.findSome? fun chunk => (Check.hex 64).problem "commit chunk digest must be lowercase SHA-256" chunk with
      | some failure => .error failure
      | none =>
        if p.writable generation then .ok (toBytes (dumps p (.obj (commitRecord transactionId generation contextDigest chunkDigests))))
        else .error .raises

def decodeCommitRecord (payload : Bytes) : Except Failure (Dict Text Json) :=
  match loads p payload with
  | .error .malformed => .error (.protocol "invalid commit record JSON")
  | .error .raises => .error .raises
  | .ok (.obj fields) =>
    let record := ofFields fields
    if hasNames record recordFields then
      match get record "chunk_digests" with
      | .arr (chunk :: chunks) =>
        match encodeCommitRecord p (get record "transaction_id") (get record "generation") (get record "context_digest") (chunk :: chunks) with
        | .error failure => .error failure
        | .ok expected => if expected = payload then .ok record else .error (.protocol "commit record is not canonical")
      | _ => .error (.protocol "commit record requires chunk digests")
    else .error (.protocol "invalid commit record fields")
  | .ok _ => .error (.protocol "invalid commit record fields")

end SparkRing.FrameCodec
