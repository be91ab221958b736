import Mathlib.Data.List.DropRight
import Mathlib.Data.Nat.Bitwise

/-!
# Notes of the teardown rounds

A round of a close is one all-gather of fixed-size notes. A note names the
close it belongs to (kind, ordinal, round) and carries the failure of the rank
that posted it. The wire form keeps 32 bits of the ordinal and cuts the text of
the failure, so a decoded note is compared field by field with the note its
reader posted.
-/

namespace SparkRing.TeardownNote

open List (cons_append)
open UInt8 (ofNat toNat_ofNat')

/-- The object a close tears down; `unknown` is what an undefined kind code
decodes to. -/
inductive Kind where
  | session
  /-- A set of point-to-point channels. -/
  | channels
  /-- A kind code outside `kinds`. -/
  | unknown
  deriving DecidableEq, Repr

/-- The word a note's description uses for a kind. -/
def Kind.text : Kind → String
  | .session => "session"
  | .channels => "channels"
  | .unknown => "unknown"

/-- The kinds that have a code on the wire, one more than their index. -/
def kinds : List Kind := [.session, .channels]

/-- Bytes of a note on the wire. -/
def noteBytes : ℕ := 512

/-- Byte 0 of a note on the wire. -/
def noteFormat : UInt8 := 2

/-- Bytes of the header: format, round, kind code, failure flag, ordinal. -/
def headerSize : ℕ := 8

/-- One rank's note in one round. -/
structure Note where
  /-- Kind of the closed object. -/
  kind : Kind
  /-- Index of the object among those its rank created on the group. -/
  ordinal : ℤ
  /-- Round 1 or 2; 0 in a note of another format. -/
  phase : ℕ
  /-- The failure of the rank, or `none` when it has none. -/
  failure : Option String := none
  deriving DecidableEq, Repr

/-- Two notes belong to the same round of the same close. -/
def Note.sameClose (mine other : Note) : Bool :=
  decide ((mine.kind, mine.ordinal, mine.phase) = (other.kind, other.ordinal, other.phase))

theorem Note.sameClose_iff {mine other : Note} : mine.sameClose other = true ↔
    mine.kind = other.kind ∧ mine.ordinal = other.ordinal ∧ mine.phase = other.phase := by
  simp [Note.sameClose]

/-- The close a note names, in words. -/
def Note.describe (note : Note) : String :=
  if note.phase ≠ 0 then s!"{note.kind.text} {note.ordinal} in round {note.phase}"
  else "a note of another format"

/-- UTF-8 bytes of a text. -/
def utf8 (text : String) : List UInt8 := text.toList.flatMap String.utf8EncodeChar

/-- What replaces a byte sequence that is no character. -/
def replacement : Char := '\uFFFD'

/-- A character begun and not finished: value so far, bytes owed, and the
range of the next byte. -/
structure Pending where
  /-- Value of the bytes read so far. -/
  value : ℕ
  /-- Continuation bytes owed after the next one. -/
  owed : ℕ
  /-- Least next byte. -/
  low : ℕ
  /-- Greatest next byte. -/
  high : ℕ
  deriving DecidableEq

/-- The character a first byte begins: finished, pending, or none. -/
def lead (b : ℕ) : Option (Char ⊕ Pending) :=
  if b ≤ 0x7F then some (.inl (Char.ofNat b))
  else if 0xC2 ≤ b ∧ b ≤ 0xDF then some (.inr ⟨b - 0xC0, 0, 0x80, 0xBF⟩)
  else if b = 0xE0 then some (.inr ⟨0, 1, 0xA0, 0xBF⟩)
  else if b = 0xED then some (.inr ⟨0xD, 1, 0x80, 0x9F⟩)
  else if 0xE1 ≤ b ∧ b ≤ 0xEF then some (.inr ⟨b - 0xE0, 1, 0x80, 0xBF⟩)
  else if b = 0xF0 then some (.inr ⟨0, 2, 0x90, 0xBF⟩)
  else if 0xF1 ≤ b ∧ b ≤ 0xF3 then some (.inr ⟨b - 0xF0, 2, 0x80, 0xBF⟩)
  else if b = 0xF4 then some (.inr ⟨4, 2, 0x80, 0x8F⟩)
  else none

/-- Decode UTF-8 with replacement, from a pending character if there is one.
Each maximal beginning of a character that does not go on is replaced once. -/
def decodeFrom : Option Pending → List UInt8 → List Char
  | none, [] => []
  | some _, [] => [replacement]
  | none, b :: rest =>
    match lead b.toNat with
    | some (.inl c) => c :: decodeFrom none rest
    | some (.inr p) => decodeFrom (some p) rest
    | none => replacement :: decodeFrom none rest
  | some p, b :: rest =>
    if p.low ≤ b.toNat ∧ b.toNat ≤ p.high then
      let value := p.value * 64 + b.toNat % 64
      match p.owed with
      | 0 => Char.ofNat value :: decodeFrom none rest
      | owed + 1 => decodeFrom (some ⟨value, owed, 0x80, 0xBF⟩) rest
    else
      -- the byte that breaks the sequence is read again as a first byte
      replacement ::
        match lead b.toNat with
        | some (.inl c) => c :: decodeFrom none rest
        | some (.inr q) => decodeFrom (some q) rest
        | none => replacement :: decodeFrom none rest

/-- Text of UTF-8 bytes, with replacement. -/
def utf8Decode (raw : List UInt8) : String := String.ofList (decodeFrom none raw)

/-- A word of 32 bits as little-endian bytes. -/
def pack32 (n : ℕ) : List UInt8 :=
  [UInt8.ofNat n, UInt8.ofNat (n / 2 ^ 8), UInt8.ofNat (n / 2 ^ 16), UInt8.ofNat (n / 2 ^ 24)]

/-- The word of four little-endian bytes. -/
def unpack32 (a b c d : UInt8) : ℕ :=
  a.toNat + 2 ^ 8 * b.toNat + 2 ^ 16 * c.toNat + 2 ^ 24 * d.toNat

/-- Failure text of a note on the wire, cut to what the header leaves. -/
def failureText (failure : Option String) : List UInt8 :=
  match failure with
  | none => []
  | some text => (utf8 text).take (noteBytes - headerSize)

/-- The bytes after the header: the failure text, padded with zeros. -/
def failureField (failure : Option String) : List UInt8 :=
  failureText failure ++ List.replicate (noteBytes - headerSize - (failureText failure).length) 0

/-- A note as `noteBytes` bytes; `none` where the packing raises (a kind that
has no code, a round of more than one byte). -/
def encode (note : Note) : Option (List UInt8) :=
  match kinds.idxOf? note.kind with
  | none => none
  | some index =>
    if note.phase < 256 then
      some ([noteFormat, UInt8.ofNat note.phase, UInt8.ofNat (index + 1),
          UInt8.ofNat (if note.failure.isSome then 1 else 0)]
        ++ pack32 (note.ordinal % 2 ^ 32).toNat ++ failureField note.failure)
    else none

/-- Bytes that are not those of a note: too short, or of another format. -/
def foreign (raw : List UInt8) : Bool := raw.length < headerSize || raw.head? != some noteFormat

/-- What bytes of another format decode to: a note that names no close. -/
def otherFormat : Note := ⟨.unknown, -1, 0, some "a teardown note of another format"⟩

/-- The failure that a set flag and the bytes after the header spell. -/
def decodeFailure (failed : UInt8) (text : List UInt8) : Option String :=
  if failed ≠ 0 then
    let decoded := utf8Decode (text.rdropWhile (· == 0))
    some (if decoded = "" then "failed" else decoded)
  else none

/-- The note that `encode` wrote. -/
def decode : List UInt8 → Note
  | format :: phase :: kind :: failed :: a :: b :: c :: d :: text =>
    if format ≠ noteFormat then otherFormat
    else
      let name := if 1 ≤ kind.toNat then kinds.getD (kind.toNat - 1) .unknown else .unknown
      ⟨name, unpack32 a b c d, phase.toNat, decodeFailure failed text⟩
  | _ => otherFormat

theorem unpack32_pack32 {n : ℕ} (h : n < 2 ^ 32) :
    unpack32 (ofNat n) (ofNat (n / 2 ^ 8)) (ofNat (n / 2 ^ 16))
      (ofNat (n / 2 ^ 24)) = n := by
  simp only [unpack32, toNat_ofNat']
  omega

/-- A set flag decodes to a failure and a clear one to none. -/
theorem decodeFailure_isSome (failed : UInt8) (text : List UInt8) : (decodeFailure failed text).isSome = decide (failed ≠ 0) := by
  unfold decodeFailure
  split <;> simp_all

/-- The flag of a note decodes to a failure exactly when the note has one. -/
theorem decodeFailure_flag (failure : Option String) (text : List UInt8) :
    (decodeFailure (ofNat (if failure.isSome then 1 else 0)) text).isSome = failure.isSome := by
  rw [decodeFailure_isSome]
  cases failure <;> rfl

/-- A note with a kind on the wire and a round of one byte is encoded, and the
decoded note has the kind, the round and the low 32 bits of the ordinal. -/
theorem encode_spec {note : Note} (hk : note.kind ∈ kinds) (hp : note.phase < 256) :
    ∃ raw, encode note = some raw ∧ decode raw = ⟨note.kind, note.ordinal % 2 ^ 32, note.phase,
      decodeFailure (ofNat (if note.failure.isSome then 1 else 0)) (failureField note.failure)⟩ := by
  have hn : (note.ordinal % 2 ^ 32).toNat < 2 ^ 32 := by omega
  have ho : ((note.ordinal % 2 ^ 32).toNat : ℤ) = note.ordinal % 2 ^ 32 := by omega
  have hph : (ofNat note.phase).toNat = note.phase := by
    simp only [toNat_ofNat']
    omega
  have hw := unpack32_pack32 hn
  have hkind : ∃ index, kinds.idxOf? note.kind = some index ∧
      (if 1 ≤ (ofNat (index + 1)).toNat then
        kinds.getD ((ofNat (index + 1)).toNat - 1) .unknown else .unknown) = note.kind := by
    cases hc : note.kind with
    | session => exact ⟨0, by decide, by decide⟩
    | channels => exact ⟨1, by decide, by decide⟩
    | unknown => simp [hc, kinds] at hk
  obtain ⟨index, hi, hname⟩ := hkind
  have he : encode note = some (noteFormat :: ofNat note.phase :: ofNat (index + 1) ::
      ofNat (if note.failure.isSome then 1 else 0) ::
      (pack32 (note.ordinal % 2 ^ 32).toNat ++ failureField note.failure)) := by
    simp only [encode, hi, hp, if_true, cons_append, List.nil_append]
  refine ⟨_, he, ?_⟩
  simp only [decode, pack32, cons_append, List.nil_append, ne_eq, not_true_eq_false, if_false, hname, hw, hph, ho]

/-- A decoded note tells a failure exactly when the note that was encoded has
one. -/
theorem decode_encode {note : Note} (hk : note.kind ∈ kinds) (hp : note.phase < 256) : ∃ raw failure, encode note = some raw ∧
      decode raw = ⟨note.kind, note.ordinal % 2 ^ 32, note.phase, failure⟩ ∧ failure.isSome = note.failure.isSome := by
  obtain ⟨raw, hraw, hback⟩ := encode_spec hk hp
  exact ⟨raw, _, hraw, hback, decodeFailure_flag _ _⟩

/-- Only notes that have a wire form are encoded. -/
theorem of_encode {note : Note} {raw : List UInt8} (h : encode note = some raw) : note.kind ∈ kinds ∧ note.phase < 256 := by
  unfold encode at h
  split at h
  · cases h
  case h_2 index hi =>
    obtain ⟨hp, h⟩ := Option.ite_none_right_eq_some.mp h
    refine ⟨?_, hp⟩
    by_contra hk
    rw [List.idxOf?_eq_none_iff.mpr hk] at hi
    cases hi

/-- Bytes too short for a header, or of another format, name no close. -/
theorem decode_foreign {raw : List UInt8} (h : foreign raw = true) : decode raw = otherFormat := by
  unfold foreign at h
  rw [Bool.or_eq_true, decide_eq_true_eq] at h
  unfold decode
  split
  · rcases h with h | h
    · simp only [headerSize, List.length_cons] at h
      omega
    · rw [if_pos (by simpa using h)]
  · rfl

/-- A failure text cut inside a character. -/
example : (decode ((encode ⟨.channels, 2 ^ 32 + 7, 2, some "link é"⟩).getD [])).ordinal = 7 := by
  decide +kernel

/-- What the codec keeps of a text: half of a surrogate pair has no bytes and
becomes a question mark. -/
def spelled (text : List ℕ) : String :=
  String.ofList (text.map fun c => if c.isValidChar then Char.ofNat c else '?')

section Decoding

variable {p : Pending} {n v : ℕ} {c : Char} {rest : List UInt8}

theorem toNat_byte (hn : n < 256) : (ofNat n).toNat = n := by
  rw [toNat_ofNat', Nat.mod_eq_of_lt hn]

/-- A byte in range goes on with a pending character. -/
theorem decodeFrom_more {owed : ℕ} (hp : p = ⟨v, owed + 1, p.low, p.high⟩) (hlow : p.low ≤ n) (hhigh : n ≤ p.high)
    (hn : n < 256) : decodeFrom (some p) (ofNat n :: rest) = decodeFrom (some ⟨v * 64 + n % 64, owed, 0x80, 0xBF⟩) rest := by
  rw [hp] at hlow hhigh ⊢
  rw [decodeFrom, toNat_byte hn, if_pos ⟨hlow, hhigh⟩]

/-- The last byte of a pending character finishes it. -/
theorem decodeFrom_last (hp : p = ⟨v, 0, p.low, p.high⟩) (hlow : p.low ≤ n) (hhigh : n ≤ p.high) (hn : n < 256) :
    decodeFrom (some p) (ofNat n :: rest) = Char.ofNat (v * 64 + n % 64) :: decodeFrom none rest := by
  rw [hp] at hlow hhigh ⊢
  rw [decodeFrom, toNat_byte hn, if_pos ⟨hlow, hhigh⟩]

theorem decodeFrom_lead (hn : n < 256) : decodeFrom none (ofNat n :: rest) =
    match lead n with
    | some (.inl c) => c :: decodeFrom none rest
    | some (.inr q) => decodeFrom (some q) rest
    | none => replacement :: decodeFrom none rest := by
  rw [decodeFrom, toNat_byte hn]

/-- The first byte of a character of three bytes. -/
theorem lead_three (h : n < 16) : lead (n + 0xE0) = some (.inr ⟨n, 1, if n = 0 then 0xA0 else 0x80, if n = 13 then 0x9F else 0xBF⟩) := by
  revert h
  revert n
  decide

/-- The first byte of a character of four bytes. -/
theorem lead_four (h : n < 5) : lead (n + 0xF0) = some (.inr ⟨n, 2, if n = 0 then 0x90 else 0x80, if n = 4 then 0x8F else 0xBF⟩) := by
  revert h
  revert n
  decide

/-- Every character is read back from its bytes, whatever follows them. -/
theorem decodeFrom_char (c : Char) : decodeFrom none (String.utf8EncodeChar c ++ rest) = c :: decodeFrom none rest := by
  have hvalid : c.val.toNat < 0xD800 ∨ 0xDFFF < c.val.toNat ∧ c.val.toNat < 0x110000 := c.valid
  have hback : Char.ofNat c.val.toNat = c := Char.ofNat_toNat c
  unfold String.utf8EncodeChar
  generalize c.val.toNat = v at hvalid hback
  by_cases h1 : v ≤ 0x7F
  · rw [if_pos h1, List.singleton_append, decodeFrom_lead (by omega), lead, if_pos h1, hback]
  rw [if_neg h1]
  by_cases h2 : v ≤ 0x7FF
  · have hlead : lead (v / 64 % 32 + 0xC0) = some (.inr ⟨v / 64, 0, 0x80, 0xBF⟩) := by
      rw [lead, if_neg (by omega), if_pos (by omega), show v / 64 % 32 + 0xC0 - 0xC0 = v / 64 by omega]
    rw [if_pos h2, cons_append, List.singleton_append, decodeFrom_lead (by omega), hlead]
    dsimp only
    rw [decodeFrom_last rfl (by dsimp only; omega) (by dsimp only; omega) (by omega), ← hback]
    congr
    omega
  rw [if_neg h2]
  by_cases h3 : v ≤ 0xFFFF
  · rw [if_pos h3, cons_append, cons_append, List.singleton_append, decodeFrom_lead (by omega),
      lead_three (by omega)]
    dsimp only
    rw [decodeFrom_more rfl (by dsimp only; split <;> omega) (by dsimp only; split <;> omega) (by omega),
      decodeFrom_last rfl (by dsimp only; omega) (by dsimp only; omega) (by omega), ← hback]
    congr
    omega
  rw [if_neg h3, cons_append, cons_append, cons_append, List.singleton_append,
    decodeFrom_lead (by omega), lead_four (by omega)]
  dsimp only
  rw [decodeFrom_more rfl (by dsimp only; split <;> omega) (by dsimp only; split <;> omega) (by omega),
    decodeFrom_more rfl (by dsimp only; omega) (by dsimp only; omega) (by omega),
    decodeFrom_last rfl (by dsimp only; omega) (by dsimp only; omega) (by omega), ← hback]
  congr
  omega

end Decoding

/-- A text is read back from its bytes. -/
theorem utf8Decode_utf8 (text : String) : utf8Decode (utf8 text) = text := by
  have hchars (chars : List Char) : decodeFrom none (chars.flatMap String.utf8EncodeChar) = chars := by
    induction chars with
    | nil => rfl
    | cons c chars ih => rw [List.flatMap_cons, decodeFrom_char, ih]
  rw [utf8Decode, utf8, hchars, String.ofList_toList]

/-- Only a NUL has a last byte of zero. -/
theorem getLast?_utf8EncodeChar {c : Char} (h : (String.utf8EncodeChar c).getLast? = some 0) : c.toNat = 0 := by
  unfold String.utf8EncodeChar at h
  change c.val.toNat = 0
  generalize c.val.toNat = v at h
  dsimp only at h
  split_ifs at h <;>
    simp only [List.getLast?_cons_cons, List.getLast?_singleton, Option.some.injEq, ← UInt8.toNat_inj,
      toNat_ofNat', UInt8.toNat_zero] at h <;> omega

/-- Zeros behind a text that does not end in a NUL are told apart from it. -/
theorem rdropWhile_padded {text : String} (hlast : (text.toList.getLast?.map Char.toNat) ≠ some 0) (k : ℕ) :
    (utf8 text ++ List.replicate k 0).rdropWhile (· == 0) = utf8 text := by
  induction k with
  | zero =>
    rw [List.replicate_zero, List.append_nil, List.rdropWhile_eq_self_iff]
    intro hne hzero
    rcases List.eq_nil_or_concat text.toList with hempty | ⟨front, c, hchars⟩
    · exact hne (by rw [utf8, hempty, List.flatMap_nil])
    have hc : (String.utf8EncodeChar c).getLast? = some 0 := by
      have h := List.getLast?_eq_some_getLast hne
      rw [beq_iff_eq.mp hzero, utf8, hchars, List.concat_eq_append, List.flatMap_append, List.flatMap_singleton,
        List.getLast?_append] at h
      cases hlast : (String.utf8EncodeChar c).getLast? with
      | none => exact absurd (List.getLast?_eq_none_iff.mp hlast) String.utf8EncodeChar_ne_nil
      | some b => rw [hlast] at h; exact h
    rw [hchars, List.concat_eq_append, List.getLast?_concat] at hlast
    exact hlast (congrArg some (getLast?_utf8EncodeChar hc))
  | succ k ih =>
    rw [List.replicate_succ', ← List.append_assoc, List.rdropWhile_concat_pos _ _ _ rfl]
    exact ih

/-- A failure that fits is read back whole. -/
theorem decodeFailure_failureField {text : String} (hne : text ≠ "") (hfits : (utf8 text).length ≤ noteBytes - headerSize)
    (hlast : text.toList.getLast?.map Char.toNat ≠ some 0) : decodeFailure 1 (failureField (some text)) = some text := by
  rw [decodeFailure, if_pos (by decide), failureField, failureText, List.take_of_length_le hfits,
    rdropWhile_padded hlast, utf8Decode_utf8]
  exact congrArg some (if_neg hne)

/-- A text without halves of surrogate pairs is spelled as it is. -/
theorem toList_spelled {text : List ℕ} (h : ∀ c ∈ text, c.isValidChar) : (spelled text).toList.map Char.toNat = text := by
  rw [spelled, String.toList_ofList, List.map_map]
  refine (List.map_congr_left fun c hc => ?_).trans (List.map_id text)
  rw [Function.comp, if_pos (h c hc), Char.ofNat, dif_pos (h c hc)]
  rfl

/-- A note that was encoded names its close again and tells whether its rank
failed; a failure of at most 504 bytes that is not empty and does not end in a
NUL comes back whole. Bytes of another format name no close. -/
theorem notes_keep_their_close :
    (∀ (kind : Kind) (ordinal phase : ℕ) (failure : Option (List ℕ)),
      kind ∈ kinds → ordinal < 2 ^ 32 → phase < 256 →
      ∃ raw, encode ⟨kind, ordinal, phase, failure.map spelled⟩ = some raw ∧
        (decode raw).sameClose ⟨kind, ordinal, phase, failure.map spelled⟩ = true ∧
        (decode raw).failure.isSome = failure.isSome ∧
        ∀ text, failure = some text → text ≠ [] → (∀ c ∈ text, c.isValidChar) →
          (utf8 (spelled text)).length ≤ 504 → text.getLast? ≠ some 0 →
          decode raw = ⟨kind, ordinal, phase, failure.map spelled⟩ ∧
            (spelled text).toList.map Char.toNat = text) ∧
    ∀ raw, foreign raw = true → ∀ note : Note, note.kind ∈ kinds → (decode raw).sameClose note = false := by
  refine ⟨fun kind ordinal phase failure hk ho hp => ?_, fun raw hraw note hk => ?_⟩
  · obtain ⟨raw, hraw, hback⟩ := @encode_spec ⟨kind, ordinal, phase, failure.map spelled⟩ hk hp
    have hsmall : ((ordinal : ℤ) % 2 ^ 32) = ordinal := by omega
    rw [hsmall] at hback
    refine ⟨raw, hraw, ?_, ?_, fun text hfailure hne hvalid hfits hlast => ?_⟩
    · rw [hback, Note.sameClose_iff]
      exact ⟨rfl, rfl, rfl⟩
    · rw [hback, decodeFailure_flag, Option.isSome_map]
    have hchars := toList_spelled hvalid
    refine ⟨?_, hchars⟩
    rw [hback, hfailure]
    refine congrArg _ (decodeFailure_failureField (fun hempty => hne ?_) hfits ?_)
    · rw [← hchars, hempty]
      rfl
    · rw [← List.getLast?_map, hchars]
      exact hlast
  · rw [decode_foreign hraw]
    refine Bool.eq_false_iff.mpr fun h => ?_
    rw [← (Note.sameClose_iff.mp h).1] at hk
    exact absurd hk (by decide)

end SparkRing.TeardownNote
