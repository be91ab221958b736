import SparkRing.JsonText

/-!
# Digests of prompt prefixes

The cache names a prefix of a prompt by the digest of a salt, the packed token ids and the
media that start inside the prefix. The hash object of the standard library is the bytes it
was fed; the digest of those bytes is a parameter.
-/

namespace SparkRing.ContextDigest

open JsonText (Bytes Text Scalar text)

/-- What the codec raises. -/
inductive Failure
  | codec (message : String)
  | unicode
deriving DecidableEq, Repr

/-- A Python value as far as the checks tell them apart. -/
inductive Value
  | int (value : ℤ)
  | bool (value : Bool)
  | str (characters : Text)
  | other
deriving DecidableEq, Repr

/-- A feature as it is given. -/
structure Given where
  modality : Value
  identifier : Value
  offset : Value
  length : Value
deriving DecidableEq, Repr

def utf8Char (c : ℕ) : Bytes := String.utf8EncodeChar (Char.ofNat c)

/-- The bytes of a text in UTF-8; a half of a surrogate pair has none. -/
def encodeUtf8 (characters : Text) : Option Bytes :=
  if characters.all fun c => decide (Scalar c) then some (characters.flatMap utf8Char) else none

/-- The content and the placeholder range of a feature that was accepted
(`MultimodalFeatureIdentity`). -/
structure Feature where
  modality : Text
  identifier : Text
  offset : ℕ
  length : ℕ
  modalityBytes : Bytes
  identifierBytes : Bytes
  modality_utf8 : encodeUtf8 modality = some modalityBytes
  identifier_utf8 : encodeUtf8 identifier = some identifierBytes
  modality_size : modalityBytes.length < 2 ^ 32
  identifier_size : identifierBytes.length < 2 ^ 32
  length_pos : 0 < length
  stop_lt : offset + length < 2 ^ 64

/-- Where a feature's range ends. -/
def Feature.stop (feature : Feature) : ℕ := feature.offset + feature.length

/-- The characters of a text that is not empty. -/
def nonemptyText : Value → Option Text
  | .str characters => if characters = [] then none else some characters
  | _ => none

/-- The range of a feature: an integer offset that is not negative and a positive length. -/
def range : Value → Value → Option (ℕ × ℕ)
  | .int offset, .int length => if 0 ≤ offset ∧ 0 < length then some (offset.toNat, length.toNat) else none
  | _, _ => none

/-- One turn of the loop of `validate_multimodal_features`; `none` is an object of another type. -/
def validateFeature (tokenCount previousEnd : ℕ) : Option Given → Except Failure Feature
  | none => .error (.codec "multimodal feature identity has an invalid type")
  | some given =>
    match nonemptyText given.modality with
    | none => .error (.codec "multimodal feature modality must be a non-empty string")
    | some modality =>
      match nonemptyText given.identifier with
      | none => .error (.codec "multimodal feature identifier must be a non-empty string")
      | some identifier =>
        match range given.offset given.length with
        | none => .error (.codec
            "multimodal feature range must contain non-negative integer offsets and positive integer lengths")
        | some (offset, length) =>
          if offset < previousEnd then .error (.codec "multimodal feature ranges must be ordered and disjoint")
          else if tokenCount < offset + length then .error (.codec "multimodal feature range exceeds the prompt tokens")
          else
            match hmodality : encodeUtf8 modality, hidentifier : encodeUtf8 identifier with
            | some modalityBytes, some identifierBytes =>
              if hsize : modalityBytes.length < 2 ^ 32 ∧ identifierBytes.length < 2 ^ 32 then
                if hstop : 0 < length ∧ offset + length < 2 ^ 64 then
                  .ok ⟨modality, identifier, offset, length, modalityBytes, identifierBytes, hmodality, hidentifier, hsize.1,
                    hsize.2, hstop.1, hstop.2⟩
                else .error (.codec "multimodal feature range is too large")
              else .error (.codec "multimodal feature identity is too large")
            | _, _ => .error (.codec "multimodal feature identity is not valid UTF-8")

/-- The loop of `validate_multimodal_features`. -/
def validateFrom (tokenCount : ℕ) : ℕ → List (Option Given) → Except Failure (List Feature)
  | _, [] => .ok []
  | previousEnd, given :: rest => do
    let feature ← validateFeature tokenCount previousEnd given
    let more ← validateFrom tokenCount feature.stop rest
    return feature :: more

/-- The features in order, or why they are refused. -/
def validateMultimodalFeatures (features : List (Option Given)) (tokenCount : ℕ) : Except Failure (List Feature) :=
  if 2 ^ 32 - 1 < features.length then .error (.codec "too many multimodal features")
  else validateFrom tokenCount 0 features

/-- Little-endian bytes of a fixed width (`struct` and `array`). -/
def little : ℕ → ℕ → Bytes
  | 0, _ => []
  | width + 1, n => UInt8.ofNat n :: little width (n / 256)

/-- The domain that separates media from tokens. -/
def multimodalDigestDomain : Bytes := (0 :: text "sparkcache-multimodal-context-v1" ++ [0]).map UInt8.ofNat

/-- A hash object: the bytes it was fed. -/
structure Hasher where
  fed : Bytes

/-- `hashlib.sha256()` -/
def Hasher.new : Hasher := ⟨[]⟩

/-- Feeding bytes appends them. -/
def Hasher.update (digest : Hasher) (bytes : Bytes) : Hasher := ⟨digest.fed ++ bytes⟩

/-- The features that start inside a prefix. -/
def active (features : List Feature) (tokenCount : ℕ) : List Feature :=
  features.filter fun feature => feature.offset < tokenCount

def Feature.bytes (feature : Feature) : Bytes :=
  little 8 feature.offset ++ little 8 feature.length ++ little 4 feature.modalityBytes.length ++
    little 4 feature.identifierBytes.length ++ feature.modalityBytes ++ feature.identifierBytes

/-- Feed the media that start inside a prefix (`_extend_with_multimodal_identity`). -/
def extendWithMultimodalIdentity (digest : Hasher) (features : List Feature) (tokenCount : ℕ) : Hasher :=
  if active features tokenCount = [] then digest
  else
    (active features tokenCount).foldl (fun digest feature => digest.update feature.bytes)
      ((digest.update multimodalDigestDomain).update (little 4 (active features tokenCount).length))

/-- Unsigned 32-bit integers (`_u32_array`). -/
def u32Array (values : List ℤ) (label : String) : Except Failure (List ℕ) :=
  if ∀ value ∈ values, 0 ≤ value ∧ value < 2 ^ 32 then .ok (values.map Int.toNat)
  else .error (.codec s!"{label} must contain unsigned 32-bit integers")

/-- The bytes of an array of unsigned 32-bit integers. -/
def rawBytes (packed : List ℕ) : Bytes := packed.flatMap (little 4)

/-- `identity_salt.encode("ascii")` -/
def encodeAscii (salt : Text) : Except Failure Bytes :=
  if ∀ c ∈ salt, c < 128 then .ok (salt.map UInt8.ofNat) else .error .unicode

variable {Digest : Type} (sha256 : Bytes → Digest)

/-- The digest of what a hash object was fed. -/
def Hasher.hexdigest (digest : Hasher) : Digest := sha256 digest.fed

/-- The digest of a prefix and the media that start in it; all tokens where no count is given. -/
def contextPrefixDigest (tokenIds : List ℤ) (identitySalt : Text) (tokenCount : Option ℤ)
    (multimodalFeatures : List (Option Given)) : Except Failure Digest := do
  let packed ← u32Array tokenIds "token_ids"
  let count := tokenCount.getD packed.length
  if 0 ≤ count ∧ count ≤ packed.length then
    let features ← validateMultimodalFeatures multimodalFeatures packed.length
    let salt ← encodeAscii identitySalt
    let digest := ((Hasher.new.update salt).update [0]).update ((rawBytes packed).take (count.toNat * 4))
    return (extendWithMultimodalIdentity digest features count.toNat).hexdigest sha256
  else .error (.codec "token_count must identify a prefix of token_ids")

def checkBoundaries (chunkTokens : ℤ) (packed : ℕ) : ℤ → List ℤ → Except Failure Unit
  | _, [] => .ok ()
  | previous, boundary :: rest =>
    if boundary ≤ 0 ∨ boundary % chunkTokens ≠ 0 then
      .error (.codec s!"boundaries must be positive multiples of {chunkTokens} tokens")
    else if boundary ≤ previous then .error (.codec "boundaries must be strictly increasing")
    else if (packed : ℤ) < boundary then .error (.codec "boundary must identify a prefix of token_ids")
    else checkBoundaries chunkTokens packed boundary rest

/-- The pass over the boundaries: one running hash, copied at each of them. -/
def digestBoundaries (raw : Bytes) (features : List Feature) : Hasher → ℕ → List ℤ → List (ℤ × Digest)
  | _, _, [] => []
  | digest, previous, boundary :: rest =>
    let fed := digest.update ((raw.take (boundary.toNat * 4)).drop (previous * 4))
    (boundary, (extendWithMultimodalIdentity fed features boundary.toNat).hexdigest sha256) ::
      digestBoundaries raw features fed boundary.toNat rest

/-- The digests of the prefixes at the boundaries, in one pass. -/
def chunkPrefixDigests (tokenIds : List ℤ) (identitySalt : Text) (boundaries : List ℤ)
    (multimodalFeatures : List (Option Given)) (chunkTokens : ℤ) : Except Failure (List (ℤ × Digest)) := do
  if chunkTokens ≤ 0 then .error (.codec "chunk_tokens must be a positive integer")
  else
    let packed ← u32Array tokenIds "token_ids"
    checkBoundaries chunkTokens packed.length 0 boundaries
    let features ← validateMultimodalFeatures multimodalFeatures packed.length
    if boundaries = [] then return []
    else
      let salt ← encodeAscii identitySalt
      let digest := (Hasher.new.update salt).update [0]
      return digestBoundaries sha256 (rawBytes packed) features digest 0 boundaries

end SparkRing.ContextDigest
