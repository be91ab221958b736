import Mathlib.Algebra.Order.Ring.Nat
import Mathlib.Data.List.Sort

/-!
# Frames of buddy replication

A transaction names a replica in the making, and every frame belongs to one. The
codec writes a frame as a prefix, a canonical JSON header and a payload, and a
commit record as canonical JSON. A received commit record counts only where its
canonical encoding is the received one.
-/

namespace SparkRing.Replication

/-- Bytes as on the wire. -/
abbrev Bytes := List UInt8

/-- A transaction in one generation. -/
structure Key where
  transactionId : String
  generation : ℕ
  deriving DecidableEq

/-- What a receiver answers a frame. -/
inductive Status
  | ok
  | duplicate
  | committed
  | aborted
  | rejected
  deriving DecidableEq

/-- The text of a status on the wire. -/
def Status.text : Status → String
  | .ok => "ok"
  | .duplicate => "duplicate"
  | .committed => "committed"
  | .aborted => "aborted"
  | .rejected => "rejected"

/-- What a frame says of its transaction. -/
inductive Body
  /-- Open the transaction. -/
  | begin (contextDigest identityDigest : String)
  | putChunk (chunkIndex : ℕ) (chunkDigest : String) (payload : Bytes)
  /-- Publish the replica, whose commit record is the payload. -/
  | commit (manifestDigest : String) (chunkCount : ℕ) (payload : Bytes)
  /-- Drop the transaction. -/
  | abort (reason : String)
  /-- The answer to a frame. -/
  | ack (ackSequence : ℕ) (status : Status)
  /-- What the receiver still stages. -/
  | credit (availableBytes availableFrames : ℕ)
  deriving DecidableEq

/-- A frame of a transaction. -/
structure Frame where
  /-- The transaction in its generation. -/
  key : Key
  /-- The number its sender gave the frame. -/
  sequence : ℕ
  /-- What the frame says. -/
  body : Body
  deriving DecidableEq

/-- Four lowercase hexadecimal digits. -/
def hex4 (n : ℕ) : List Char :=
  [n / 4096 % 16, n / 256 % 16, n / 16 % 16, n % 16].map Nat.digitChar

/-- A character of a JSON string in ASCII. -/
def escape (c : Char) : List Char :=
  if c = '"' then ['\\', '"']
  else if c = '\\' then ['\\', '\\']
  else if c = '\n' then ['\\', 'n']
  else if c = '\r' then ['\\', 'r']
  else if c = '\t' then ['\\', 't']
  else if c.toNat = 8 then ['\\', 'b']
  else if c.toNat = 12 then ['\\', 'f']
  else if 32 ≤ c.toNat ∧ c.toNat < 127 then [c]
  else if c.toNat < 65536 then '\\' :: 'u' :: hex4 c.toNat
  else '\\' :: 'u' :: hex4 (55296 + (c.toNat - 65536) / 1024) ++ '\\' :: 'u' :: hex4 (56320 + (c.toNat - 65536) % 1024)

def jsonString (s : String) : List Char := '"' :: s.toList.flatMap escape ++ ['"']

/-- A value of a header or a commit record. -/
inductive Value
  | str (s : String)
  /-- A nonnegative integer. -/
  | nat (n : ℕ)
  /-- A list of strings. -/
  | strs (items : List String)
  deriving DecidableEq

/-- A value in JSON without spaces. -/
def Value.json : Value → List Char
  | .str s => jsonString s
  | .nat n => Nat.toDigits 10 n
  | .strs items => '[' :: [','].intercalate (items.map jsonString) ++ [']']

/-- Fields in the order of their names. -/
def sortFields (fields : List (String × Value)) : List (String × Value) :=
  fields.insertionSort fun a b => a.1 ≤ b.1

/-- An object with sorted names and without spaces, in ASCII. -/
def canonicalJson (fields : List (String × Value)) : Bytes :=
  ('{' :: [','].intercalate ((sortFields fields).map fun field => jsonString field.1 ++ ':' :: field.2.json) ++ ['}']).map
    fun c => c.toNat.toUInt8

def Frame.header (frame : Frame) : List (String × Value) :=
  let common := [("transaction_id", .str frame.key.transactionId), ("generation", .nat frame.key.generation),
    ("sequence", .nat frame.sequence)]
  match frame.body with
  | .begin contextDigest identityDigest =>
    common ++ [("context_digest", .str contextDigest), ("identity_digest", .str identityDigest)]
  | .putChunk chunkIndex chunkDigest _ => common ++ [("chunk_index", .nat chunkIndex), ("chunk_digest", .str chunkDigest)]
  | .commit manifestDigest chunkCount _ =>
    common ++ [("manifest_digest", .str manifestDigest), ("chunk_count", .nat chunkCount)]
  | .abort reason => common ++ [("reason", .str reason)]
  | .ack ackSequence status => common ++ [("ack_sequence", .nat ackSequence), ("status", .str status.text)]
  | .credit availableBytes availableFrames =>
    common ++ [("available_bytes", .nat availableBytes), ("available_frames", .nat availableFrames)]

/-- The payload of a frame, empty where its kind carries none. -/
def Frame.payload (frame : Frame) : Bytes :=
  match frame.body with
  | .putChunk _ _ payload => payload
  | .commit _ _ payload => payload
  | _ => []

/-- The number of a kind of frame. -/
def Body.frameType : Body → ℕ
  | .begin .. => 1
  | .putChunk .. => 2
  | .commit .. => 3
  | .abort .. => 4
  | .ack .. => 5
  | .credit .. => 6

/-- A number in four bytes, the most significant first. -/
def be32 (n : ℕ) : Bytes := [(n / 2 ^ 24).toUInt8, (n / 2 ^ 16).toUInt8, (n / 2 ^ 8).toUInt8, n.toUInt8]

/-- The longest header. -/
def maxHeaderBytes : ℕ := 2 ^ 20

/-- The prefix names protocol, version, kind and both lengths. A header that is too long
is not written. -/
def Frame.encode (frame : Frame) : Except String Bytes :=
  let encodedHeader := canonicalJson frame.header
  if maxHeaderBytes < encodedHeader.length then .error "frame header exceeds protocol maximum"
  else .ok ([83, 80, 82, 80, 1, frame.body.frameType.toUInt8, 0, 0] ++ be32 encodedHeader.length ++
    be32 frame.payload.length ++ encodedHeader ++ frame.payload)

/-- A value that the JSON reader finds. -/
inductive Json
  | str (s : String)
  /-- An integer. -/
  | int (n : ℤ)
  | arr (items : List Json)
  /-- An object; the last item of a name counts. -/
  | obj (fields : List (String × Json))
  /-- Anything else. -/
  | other

/-- What the JSON reader does with bytes. -/
inductive Loaded
  /-- It reads a value. -/
  | value (json : Json)
  /-- It raises a decode error. -/
  | malformed
  /-- It raises something else, as on deep nesting. -/
  | raises

/-- The last value of a name. -/
def field (fields : List (String × Json)) (name : String) : Option Json := fields.reverse.lookup name

/-- What a commit record says. -/
structure CommitRecord where
  transactionId : String
  generation : ℕ
  /-- The context of the replica. -/
  contextDigest : String
  chunkDigests : List String
  deriving DecidableEq

/-- The canonical encoding of a commit record. -/
def CommitRecord.bytes (record : CommitRecord) : Bytes :=
  canonicalJson [("transaction_id", .str record.transactionId), ("generation", .nat record.generation),
    ("context_digest", .str record.contextDigest), ("chunk_digests", .strs record.chunkDigests)]

/-- Lowercase hexadecimal text of a length. -/
def isHex (length : ℕ) (s : String) : Bool := s.length == length && s.toList.all fun c => c.isDigit || 'a' ≤ c && c ≤ 'f'

/-- A value that is a string of lowercase hexadecimal digits. -/
def hexOf (length : ℕ) : Json → Option String
  | .str s => if isHex length s then some s else none
  | _ => none

/-- A value that is a nonnegative integer. -/
def natOf : Json → Option ℕ
  | .int (.ofNat n) => some n
  | _ => none

/-- The digests of a list, each checked. -/
def digestsOf : List Json → Except String (List String)
  | [] => .ok []
  | chunk :: chunks =>
    match hexOf 64 chunk with
    | none => .error "commit chunk digest must be lowercase SHA-256"
    | some digest => (digestsOf chunks).map (digest :: ·)

/-- Check the parts of a commit record, the common ones as those of a BEGIN. -/
def validateCommitRecord (transactionId generation contextDigest : Json) (chunkDigests : List Json) :
    Except String CommitRecord :=
  if chunkDigests.isEmpty then .error "commit record requires at least one chunk"
  else
    match hexOf 32 transactionId, natOf generation, hexOf 64 contextDigest with
    | none, _, _ => .error "transaction_id must be 32 lowercase hex characters"
    | _, none, _ => .error "generation must be a nonnegative integer"
    | _, _, none => .error "context_digest must be a lowercase SHA-256 digest"
    | some transactionId, some generation, some contextDigest =>
      (digestsOf chunkDigests).map fun digests => ⟨transactionId, generation, contextDigest, digests⟩

/-- The canonical bytes of a commit record that passes its checks. -/
def encodeCommitRecord (transactionId generation contextDigest : Json) (chunkDigests : List Json) : Except String Bytes :=
  (validateCommitRecord transactionId generation contextDigest chunkDigests).map CommitRecord.bytes

/-- What decoding a commit record gives. -/
inductive Decoded
  /-- A record whose canonical encoding was received. -/
  | record (record : CommitRecord)
  | protocolError (message : String)
  /-- Another exception of the JSON reader. -/
  | raises
  deriving DecidableEq

/-- The names of a commit record, in any order and each at least once. -/
def commitRecordFields (fields : List (String × Json)) : Bool :=
  let names := ["transaction_id", "generation", "context_digest", "chunk_digests"]
  (names.all fun name => decide (name ∈ fields.map Prod.fst)) && fields.all fun field => decide (field.1 ∈ names)

/-- Decode a commit record: its checks are those of the encoder, and only the canonical
encoding is accepted. -/
def decodeCommitRecord (loads : Bytes → Loaded) (payload : Bytes) : Decoded :=
  match loads payload with
  | .malformed => .protocolError "invalid commit record JSON"
  | .raises => .raises
  | .value (.obj fields) =>
    if !commitRecordFields fields then .protocolError "invalid commit record fields"
    else
      match field fields "chunk_digests" with
      | some (.arr (chunk :: chunks)) =>
        let part := fun name => (field fields name).getD .other
        match validateCommitRecord (part "transaction_id") (part "generation") (part "context_digest") (chunk :: chunks) with
        | .error message => .protocolError message
        | .ok record => if record.bytes = payload then .record record else .protocolError "commit record is not canonical"
      | _ => .protocolError "commit record requires chunk digests"
  | .value _ => .protocolError "invalid commit record fields"

/-- A decoded record was received in its canonical encoding. -/
theorem bytes_of_decodeCommitRecord {loads : Bytes → Loaded} {payload : Bytes} {record : CommitRecord}
    (h : decodeCommitRecord loads payload = .record record) : record.bytes = payload := by
  unfold decodeCommitRecord at h
  split at h
  · cases h
  · cases h
  · split at h
    · cases h
    split at h
    · dsimp only at h
      split at h
      · cases h
      split at h
      case isTrue hbytes =>
        cases h
        exact hbytes
      case isFalse => cases h
    · cases h
  · cases h

end SparkRing.Replication
