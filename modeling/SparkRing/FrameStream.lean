import SparkRing.FrameCodec
import SparkRing.JsonReading

/-!
# Frames on a stream

A header that passes its checks is read back from its canonical text, so an encoded frame
is taken from the front of a buffer and a part of it is waited for. A frame that is taken
was encoded as the bytes it was taken from. Commit records are read back from their
encodings, and only from these.
-/

namespace SparkRing.FrameCodec

open JsonText OrderedDict FragmentedStream
open List (all_eq_true drop_left length_append length_drop mem_cons_of_mem mem_cons_self take_add)
open WireWords (get32 get32_put32 put32 put32_get32)

variable {p : Interpreter} {b : Bounds} {frameType : FrameType} {frame : Frame} {header other : Dict Text Json} {value : Json}
  {message name : String} {names : List String} {check : Check} {characters : Text} {payload encoded buffer rest : Bytes}
  {depth headerBytes payloadBytes length : ℕ} {field : Text × Json}

theorem scalar_of_isHex (h : isHex length characters = true) : ∀ c ∈ characters, Scalar c := by
  rw [isHex, Bool.and_eq_true] at h
  intro c hc
  have hdigit := all_eq_true.mp h.2 c hc
  simp only [Bool.or_eq_true, Bool.and_eq_true, decide_eq_true_eq] at hdigit
  exact .inl (by omega)

theorem legible_natural (h : isNonnegativeInt value = true) (hwritable : p.writable value = true) :
    Legible p depth (dumps p value) value := by
  cases value with
  | int n =>
    obtain ⟨n, rfl⟩ := Int.eq_ofNat_of_zero_le (of_decide_eq_true h)
    simp only [Interpreter.writable, Int.natAbs_natCast, Bool.not_eq_true'] at hwritable
    exact legible_decimal hwritable
  | null | bool | float | str | arr | obj => cases h

/-- What passes its check is read back. -/
theorem Check.legible (h : check.problem message value = none) (hwritable : p.writable value = true) :
    Legible p depth (dumps p value) value := by
  cases check with
  | hex =>
    cases value with
    | str =>
      simp only [Check.problem] at h
      split_ifs at h with hhex
      exact legible_str (scalar_of_isHex hhex)
    | null | bool | int | float | arr | obj => cases h
  | natural =>
    simp only [Check.problem] at h
    split_ifs at h with hnatural
    exact legible_natural hnatural hwritable
  | positive =>
    cases value with
    | int =>
      simp only [Check.problem] at h
      split_ifs at h with hpositive
      exact legible_natural (decide_eq_true hpositive.le) hwritable
    | null | bool | float | str | arr | obj => cases h
  | reason =>
    cases value with
    | str characters =>
      simp only [Check.problem, utf8Length] at h
      by_cases hscalar : (characters.all fun c => decide (Scalar c)) = true
      · exact legible_str fun c hc => of_decide_eq_true (all_eq_true.mp hscalar c hc)
      · rw [if_neg hscalar] at h
        cases h
    | null | bool | int | float | arr | obj => cases h
  | status =>
    cases value with
    | str characters =>
      simp only [Check.problem] at h
      split_ifs at h with hstatus
      have hall : ∀ status ∈ ackStatuses, ∀ c ∈ status, Scalar c := by decide
      exact legible_str (hall characters hstatus)
    | null | bool | int | float | arr | obj => cases h

/-- Every field of a kind has its check. -/
theorem exists_check (h : name ∈ frameType.fields) : ∃ check ∈ frameType.checks, check.1 = name := by
  have hnames : frameType.checks.map Prod.fst = frameType.fields := by
    cases frameType with
    | begin | putChunk | commit | abort | ack | credit => rfl
  exact List.mem_map.mp (hnames ▸ h)

theorem scalar_name (h : name ∈ frameType.fields) : ∀ c ∈ text name, Scalar c := by
  have hall : ∀ name ∈ frameType.fields, ∀ c ∈ text name, Scalar c := by
    cases frameType with
    | begin | putChunk | commit | abort | ack | credit => decide
  exact hall name h

theorem hasNames_iff : hasNames header names = true ↔
    (∀ key ∈ header.keys, key ∈ names.map text) ∧ ∀ name ∈ names, text name ∈ header.keys := by
  rw [hasNames, Bool.and_eq_true, all_eq_true, all_eq_true]
  simp only [decide_eq_true_eq]

theorem get_eq (h : field ∈ header.items) (hname : field.1 = text name) : get header name = field.2 := by
  rw [get, Dict.get?_eq_some_iff.mpr (show (text name, field.2) ∈ header.items from hname ▸ h)]
  rfl

section

variable (h : validateHeader frameType header = none)

include h

theorem check_of_validateHeader {field : String × Check × String}
    (hfield : field ∈ frameType.checks) : field.2.1.problem field.2.2 (get header field.1) = none := by
  unfold validateHeader at h
  split_ifs at h with hnames
  exact List.findSome?_eq_none_iff.mp h field hfield

/-- The fields of a header that passes its checks are read back. -/
theorem legibleField (hfield : field ∈ header.items) (hwritable : p.writable field.2 = true) : LegibleField p depth field := by
  have hproblems : ∀ check ∈ frameType.checks, check.2.1.problem check.2.2 (get header check.1) = none :=
    fun check hcheck => check_of_validateHeader h hcheck
  unfold validateHeader at h
  split_ifs at h with hnames
  obtain ⟨hkeys, -⟩ := hasNames_iff.mp hnames
  obtain ⟨name, hname, hsame⟩ := List.mem_map.mp (hkeys field.1 (Dict.mem_keys_of_mem hfield))
  obtain ⟨check, hcheck, rfl⟩ := exists_check hname
  have hproblem := hproblems check hcheck
  rw [get_eq hfield hsame.symm] at hproblem
  refine ⟨?_, Check.legible hproblem hwritable⟩
  rw [← hsame]
  exact scalar_name hname

/-- A header with the same values passes the same checks. -/
theorem validateHeader_congr (hsame : ∀ key, header.get? key = other.get? key) : validateHeader frameType other = none := by
  have hkeys : ∀ key, key ∈ header.keys ↔ key ∈ other.keys := by
    intro key
    rw [Dict.mem_keys_iff, Dict.mem_keys_iff, hsame]
  have hget : ∀ name, get header name = get other name := fun name =>
    congrArg (fun found : Option Json => found.getD .null) (hsame (text name))
  unfold validateHeader at h ⊢
  split_ifs at h with hnames
  obtain ⟨hknown, hthere⟩ := hasNames_iff.mp hnames
  have hother : hasNames other frameType.fields = true :=
    hasNames_iff.mpr ⟨fun key hkey => hknown key ((hkeys key).mpr hkey), fun name hname => (hkeys _).mp (hthere name hname)⟩
  rw [if_pos hother]
  simp only [← hget]
  exact h

end

section

variable (h : postInit frameType header payload = none)

include h

theorem postInit_congr (hsame : ∀ key, header.get? key = other.get? key) : postInit frameType other payload = none := by
  unfold postInit at h ⊢
  cases hvalid : validateHeader frameType header with
  | some =>
    rw [hvalid] at h
    cases h
  | none =>
    rw [hvalid] at h
    rw [validateHeader_congr hvalid hsame]
    exact h

theorem validateHeader_of_postInit : validateHeader frameType header = none := by
  unfold postInit at h
  cases hvalid : validateHeader frameType header with
  | some =>
    rw [hvalid] at h
    cases h
  | none => rfl

theorem length_payload_of_postInit : payload.length ≤ maxPayloadBytes := by
  unfold postInit at h
  rw [validateHeader_of_postInit h] at h
  split_ifs at h with hempty hrequired hlong
  exact not_lt.mp hlong

end

/-- Fields in order, as a dictionary. -/
theorem items_ofFields_sortNames : (ofFields (sortNames header.items)).items = sortNames header.items :=
  distinct_eq (((perm_sortNames header.items).map Prod.fst).nodup_iff.mpr header.nodup)

theorem get?_ofFields_sortNames (key : Text) : header.get? key = (ofFields (sortNames header.items)).get? key := by
  refine Dict.get?_congr fun value => ?_
  rw [items_ofFields_sortNames, (perm_sortNames header.items).mem_iff]

theorem number_ofNumber : FrameType.ofNumber frameType.number = some frameType := by
  cases frameType with
  | begin | putChunk | commit | abort | ack | credit => rfl

theorem number_of_ofNumber {number : UInt8} (h : FrameType.ofNumber number = some frameType) : frameType.number = number := by
  have hfound := List.find?_some h
  exact eq_of_beq hfound

theorem next_frameStreamDecoder : (frameStreamDecoder p b).next = nextFrame p b := rfl

theorem length_framePrefix : (framePrefix frameType headerBytes payloadBytes).length = 16 := rfl

/-- What a buffer that begins with a prefix is. -/
theorem nextFrame_front (hheader : headerBytes ≤ maxHeaderBytes) (hpayload : payloadBytes ≤ maxPayloadBytes)
    (hfits : 16 + headerBytes + payloadBytes ≤ b.maxFrameBytes) :
    nextFrame p b (framePrefix frameType headerBytes payloadBytes ++ rest) =
      if rest.length < headerBytes + payloadBytes then .waits
      else
        match decodeFrame p frameType.number (rest.take headerBytes) ((rest.drop headerBytes).take payloadBytes) with
        | .error failure => .fails failure (rest.drop (headerBytes + payloadBytes))
        | .ok frame => .item frame (rest.drop (headerBytes + payloadBytes)) := by
  have hheaderGet : get32 ((framePrefix frameType headerBytes payloadBytes ++ rest).drop 8) = headerBytes :=
    get32_put32 (by rw [maxHeaderBytes] at hheader; omega) _
  have hpayloadGet : get32 ((framePrefix frameType headerBytes payloadBytes ++ rest).drop 12) = payloadBytes :=
    get32_put32 (by rw [maxPayloadBytes] at hpayload; omega) _
  have hlength : (framePrefix frameType headerBytes payloadBytes ++ rest).length = 16 + rest.length := by
    rw [length_append, length_framePrefix]
  have hdrop : ∀ n, (framePrefix frameType headerBytes payloadBytes ++ rest).drop (16 + n) = rest.drop n := by
    intro n
    rw [← List.drop_drop, List.drop_left' length_framePrefix]
  have htotal : 16 + headerBytes + payloadBytes = 16 + (headerBytes + payloadBytes) := Nat.add_assoc _ _ _
  have hmagic : ¬((framePrefix frameType headerBytes payloadBytes ++ rest).take 5 ≠ [83, 80, 82, 80, 1] ∨
      ((framePrefix frameType headerBytes payloadBytes ++ rest).drop 6).take 2 ≠ [0, 0]) :=
    fun h => h.elim (fun hne => hne rfl) fun hne => hne rfl
  unfold nextFrame
  simp only [hheaderGet, hpayloadGet, hlength]
  rw [if_neg (by omega), if_neg hmagic, if_neg (by omega), if_neg (by omega)]
  by_cases hshort : rest.length < headerBytes + payloadBytes
  · rw [if_pos hshort, if_pos (by omega)]
  have hpart : ((framePrefix frameType headerBytes payloadBytes ++ rest).take (16 + headerBytes + payloadBytes)).drop (16 + headerBytes) =
      (rest.drop headerBytes).take payloadBytes := by
    rw [List.drop_take, hdrop, Nat.add_sub_cancel_left]
  rw [if_neg hshort, if_neg (by omega), hpart, htotal, hdrop, show (16 : ℕ) = 16 + 0 from rfl, hdrop]
  rfl

theorem encode_eq (h : frame.encode p = .ok encoded) : (∀ field ∈ frame.header.items, p.writable field.2 = true) ∧
    (toBytes (dumps p (.obj frame.header.items))).length ≤ maxHeaderBytes ∧
      encoded = framePrefix frame.frameType (toBytes (dumps p (.obj frame.header.items))).length frame.payload.length ++
        (toBytes (dumps p (.obj frame.header.items)) ++ frame.payload) := by
  unfold Frame.encode at h
  split_ifs at h with hwritable
  dsimp only at h
  split_ifs at h with hlong
  refine ⟨all_eq_true.mp hwritable, not_lt.mp hlong, ?_⟩
  rw [← Except.ok.inj h, List.append_assoc]

theorem decodeFrame_encode (hwritable : ∀ field ∈ frame.header.items, p.writable field.2 = true) :
    ∃ found, frame.Same found ∧ decodeFrame p frame.frameType.number (toBytes (dumps p (.obj frame.header.items))) frame.payload = .ok found := by
  have hvalid := validateHeader_of_postInit frame.valid
  have hne : frame.header.items ≠ [] := by
    intro hnil
    unfold validateHeader at hvalid
    split_ifs at hvalid with hnames
    have hthere := (hasNames_iff.mp hnames).2 "transaction_id" (by cases frame.frameType <;> decide)
    rw [Dict.keys, hnil] at hthere
    cases hthere
  have hlegible : Legible p (p.depth + 2) (dumps p (.obj frame.header.items)) (.obj (sortNames frame.header.items)) :=
    legible_obj hne frame.header.nodup fun field hfield => legibleField hvalid hfield (hwritable field hfield)
  have hpost : postInit frame.frameType (ofFields (sortNames frame.header.items)) frame.payload = none :=
    postInit_congr frame.valid get?_ofFields_sortNames
  refine ⟨⟨frame.frameType, ofFields (sortNames frame.header.items), frame.payload, hpost⟩, ⟨rfl, get?_ofFields_sortNames, rfl⟩, ?_⟩
  unfold decodeFrame
  rw [hlegible.loads]
  dsimp only
  rw [dumps_sortNames, if_neg (fun hne => hne rfl), number_ofNumber]
  unfold Frame.make
  dsimp only
  split
  · next failure hfailure =>
    rw [hpost] at hfailure
    cases hfailure
  · rfl

/-- Encoded frames are told apart by their fronts. -/
theorem takes_encode : Takes (frameStreamDecoder p b) (fun frame encoded => frame.encode p = .ok encoded ∧ encoded.length ≤ b.maxFrameBytes)
    Frame.Same where
  whole := by
    rintro frame encoded ⟨hencode, hfits⟩
    obtain ⟨hwritable, hheader, rfl⟩ := encode_eq hencode
    obtain ⟨found, hsame, hdecode⟩ := decodeFrame_encode hwritable
    refine ⟨found, hsame, fun rest => ?_⟩
    simp only [length_append, length_framePrefix] at hfits
    rw [next_frameStreamDecoder, List.append_assoc, List.append_assoc, nextFrame_front hheader (length_payload_of_postInit frame.valid) (by omega),
      if_neg (by simp only [length_append]; omega), List.take_left, drop_left, List.take_left, hdecode]
    rw [← List.drop_drop, drop_left, drop_left]
  part := by
    rintro frame encoded front ⟨hencode, hfits⟩ hfront hne
    obtain ⟨hwritable, hheader, rfl⟩ := encode_eq hencode
    simp only [length_append, length_framePrefix] at hfits
    rw [next_frameStreamDecoder]
    by_cases hshort : front.length < 16
    · exact if_pos hshort
    have hprefix : framePrefix frame.frameType (toBytes (dumps p (.obj frame.header.items))).length frame.payload.length <+: front :=
      List.prefix_of_prefix_length_le (List.prefix_append _ _) hfront (by rw [length_framePrefix]; omega)
    obtain ⟨rest, rfl⟩ := hprefix
    have hrest := (List.prefix_append_right_inj _).mp hfront
    have hless : rest.length < (toBytes (dumps p (.obj frame.header.items)) ++ frame.payload).length := by
      refine lt_of_le_of_ne hrest.length_le fun hsame => hne ?_
      rw [hrest.eq_of_length hsame]
    rw [length_append] at hless
    rw [nextFrame_front hheader (length_payload_of_postInit frame.valid) (by omega), if_pos hless]
  nonempty := by
    rintro frame encoded ⟨hencode, -⟩
    obtain ⟨-, -, rfl⟩ := encode_eq hencode
    exact List.cons_ne_nil _ _
  nothing := rfl

theorem decodeFrame_ok {rawType : UInt8} {encodedHeader : Bytes} (h : decodeFrame p rawType encodedHeader payload = .ok frame) :
    frame.frameType.number = rawType ∧ frame.payload = payload ∧ encodedHeader = toBytes (dumps p (.obj frame.header.items)) ∧
      ∀ field ∈ frame.header.items, p.writable field.2 = true := by
  unfold decodeFrame at h
  split at h
  · cases h
  · cases h
  · next fields hloads =>
    split_ifs at h with hcanonical
    split at h
    · cases h
    next frameType hnumber =>
    unfold Frame.make at h
    split at h
    · cases h
    cases h
    obtain ⟨hitems, hwritable⟩ := loads_obj hloads
    rw [hitems]
    exact ⟨number_of_ofNumber hnumber, rfl, not_not.mp hcanonical, hwritable⟩
  · cases h

/-- The bytes before a header that was taken. -/
theorem framePrefix_eq (hlength : 16 ≤ buffer.length) (hmagic : buffer.take 5 = [83, 80, 82, 80, 1])
    (hnumber : frameType.number = (buffer.drop 5).headD 0) (hflags : (buffer.drop 6).take 2 = [0, 0]) :
    framePrefix frameType (get32 (buffer.drop 8)) (get32 (buffer.drop 12)) = buffer.take 16 := by
  have hheader : put32 (get32 (buffer.drop 8)) = (buffer.drop 8).take 4 :=
    put32_get32 (by rw [length_drop]; omega)
  have hpayload : put32 (get32 (buffer.drop 12)) = (buffer.drop 12).take 4 :=
    put32_get32 (by rw [length_drop]; omega)
  have hkind : [frameType.number] = (buffer.drop 5).take 1 := by
    cases hdrop : buffer.drop 5 with
    | nil =>
      have hzero := congrArg List.length hdrop
      rw [length_drop, List.length_nil] at hzero
      omega
    | cons =>
      rw [hnumber, hdrop]
      rfl
  have hsplit : ∀ n m, (buffer.take n) ++ (buffer.drop n).take m = buffer.take (n + m) := fun n m => take_add.symm
  calc framePrefix frameType (get32 (buffer.drop 8)) (get32 (buffer.drop 12))
      = [83, 80, 82, 80, 1] ++ [frameType.number] ++ [0, 0] ++ put32 (get32 (buffer.drop 8)) ++
          put32 (get32 (buffer.drop 12)) := rfl
    _ = buffer.take 5 ++ (buffer.drop 5).take 1 ++ (buffer.drop 6).take 2 ++ (buffer.drop 8).take 4 ++ (buffer.drop 12).take 4 := by
      rw [hmagic, hkind, hflags, hheader, hpayload]
    _ = buffer.take 16 := by rw [hsplit, hsplit, hsplit, hsplit]

/-- A frame that is taken was encoded as what it was taken from. -/
theorem gives_encode : Gives (frameStreamDecoder p b) (fun frame encoded => frame.encode p = .ok encoded ∧ encoded.length ≤ b.maxFrameBytes) where
  item := by
    intro buffer frame rest h
    rw [next_frameStreamDecoder] at h
    unfold nextFrame at h
    dsimp only at h
    split_ifs at h with hshort hmagic hdeclared hconfigured hpart
    split at h
    · cases h
    next found hdecode =>
    cases h
    obtain ⟨hnumber, hpayload, hheader, hwritable⟩ := decodeFrame_ok hdecode
    rw [not_or, not_not, not_not] at hmagic
    have hprefix := framePrefix_eq (by omega) hmagic.1 hnumber hmagic.2
    have hlengthHeader : (toBytes (dumps p (.obj frame.header.items))).length = get32 (buffer.drop 8) := by
      rw [← hheader, List.length_take, length_drop]
      omega
    have hlengthPayload : frame.payload.length = get32 (buffer.drop 12) := by
      rw [hpayload, length_drop, List.length_take]
      omega
    have hencoded : frame.encode p = .ok (buffer.take (16 + get32 (buffer.drop 8) + get32 (buffer.drop 12))) := by
      unfold Frame.encode
      rw [if_pos (all_eq_true.mpr hwritable)]
      dsimp only
      rw [hlengthHeader, if_neg (by omega), hlengthPayload, hprefix, ← hheader, hpayload, List.drop_take, Nat.add_sub_cancel_left,
        ← take_add, ← take_add]
    refine ⟨_, ⟨hencoded, ?_⟩, (List.take_append_drop _ _).symm⟩
    rw [List.length_take]
    omega
  fails := by
    intro buffer failure rest h
    rw [next_frameStreamDecoder] at h
    unfold nextFrame at h
    dsimp only at h
    split_ifs at h with hshort hmagic hdeclared hconfigured hpart
    · cases h
      exact le_rfl
    · cases h
      exact le_rfl
    · cases h
      exact le_rfl
    split at h
    · cases h
      rw [length_drop]
      omega
    · cases h

variable {transactionId generation contextDigest : Json} {chunks : List Json} {record : Dict Text Json}

theorem exists_str_of_hex (h : (Check.hex length).problem message value = none) : ∃ characters, value = .str characters := by
  cases value with
  | str characters => exact ⟨characters, rfl⟩
  | null | bool | int | float | arr | obj => cases h

/-- The parts of an encoded commit record. -/
theorem encodeCommitRecord_eq (h : encodeCommitRecord p transactionId generation contextDigest chunks = .ok encoded) :
    chunks ≠ [] ∧ validateHeader .begin (beginHeader transactionId generation contextDigest) = none ∧
      (∀ chunk ∈ chunks, (Check.hex 64).problem "commit chunk digest must be lowercase SHA-256" chunk = none) ∧
        p.writable generation = true ∧ encoded = toBytes (dumps p (.obj (commitRecord transactionId generation contextDigest chunks))) := by
  unfold encodeCommitRecord at h
  by_cases hnone : chunks = []
  · rw [if_pos hnone] at h
    cases h
  rw [if_neg hnone] at h
  split at h
  · cases h
  next hvalid =>
  split at h
  · cases h
  next hchunks =>
  split at h
  case isTrue hwritable => exact ⟨hnone, hvalid, List.findSome?_eq_none_iff.mp hchunks, hwritable, (Except.ok.inj h).symm⟩
  case isFalse => cases h

theorem items_ofFields_commitRecord : (ofFields (commitRecord transactionId generation contextDigest chunks)).items =
    commitRecord transactionId generation contextDigest chunks := by
  have hnodup : ([text "transaction_id", text "generation", text "context_digest", text "chunk_digests"] : List Text).Nodup := by decide
  exact distinct_eq hnodup

theorem items_beginHeader : (beginHeader transactionId generation contextDigest).items =
    [(text "transaction_id", transactionId), (text "generation", generation), (text "sequence", .int 0),
      (text "context_digest", contextDigest), (text "identity_digest", .str (List.replicate 64 48))] := by
  have hnodup : ([text "transaction_id", text "generation", text "sequence", text "context_digest", text "identity_digest"] :
      List Text).Nodup := by decide
  exact distinct_eq hnodup

/-- The fields of an encoded commit record are read back. -/
theorem legible_commitRecord (hne : chunks ≠ [])
    (hvalid : validateHeader .begin (beginHeader transactionId generation contextDigest) = none)
    (hchunks : ∀ chunk ∈ chunks, (Check.hex 64).problem "commit chunk digest must be lowercase SHA-256" chunk = none)
    (hwritable : p.writable generation = true) :
    ∀ field ∈ commitRecord transactionId generation contextDigest chunks, LegibleField p (depth + 1) field := by
  have hmember : ∀ name value, (text name, value) ∈ (beginHeader transactionId generation contextDigest).items →
      get (beginHeader transactionId generation contextDigest) name = value := fun name value hmem => get_eq hmem rfl
  rw [items_beginHeader] at hmember
  have htransaction := check_of_validateHeader hvalid (show ("transaction_id", Check.hex 32, _) ∈ FrameType.begin.checks from mem_cons_self)
  have hgeneration := check_of_validateHeader hvalid (show nonnegative "generation" ∈ FrameType.begin.checks from
    mem_cons_of_mem _ mem_cons_self)
  have hcontext := check_of_validateHeader hvalid (show digest "context_digest" ∈ FrameType.begin.checks from
    List.mem_append_right _ mem_cons_self)
  rw [digest, hmember "context_digest" contextDigest
    (mem_cons_of_mem _ (mem_cons_of_mem _ (mem_cons_of_mem _ mem_cons_self)))] at hcontext
  obtain ⟨transaction, rfl⟩ := exists_str_of_hex htransaction
  obtain ⟨context, rfl⟩ := exists_str_of_hex hcontext
  have hnamed : ∀ name ∈ recordFields, ∀ c ∈ text name, Scalar c := by decide
  have hlist : Legible p (depth + 1) (dumps p (.arr chunks)) (.arr chunks) := by
    refine legible_arr hne fun chunk hchunk => ?_
    obtain ⟨characters, rfl⟩ := exists_str_of_hex (hchunks chunk hchunk)
    exact Check.legible (hchunks _ hchunk) rfl
  intro field hfield
  simp only [commitRecord, List.mem_cons, List.not_mem_nil, or_false] at hfield
  rcases hfield with rfl | rfl | rfl | rfl
  · exact ⟨hnamed "transaction_id" (by decide), Check.legible htransaction rfl⟩
  · exact ⟨hnamed "generation" (by decide), Check.legible hgeneration hwritable⟩
  · exact ⟨hnamed "context_digest" (by decide), Check.legible hcontext rfl⟩
  · exact ⟨hnamed "chunk_digests" (by decide), hlist⟩

/-- An encoded commit record is read back. -/
theorem decode_encodeCommitRecord (h : encodeCommitRecord p transactionId generation contextDigest chunks = .ok encoded) :
    ∃ record, decodeCommitRecord p encoded = .ok record ∧ get record "transaction_id" = transactionId ∧
      get record "generation" = generation ∧ get record "context_digest" = contextDigest ∧
        get record "chunk_digests" = .arr chunks ∧ hasNames record recordFields = true := by
  obtain ⟨hne, hvalid, hchunks, hwritable, hencoded⟩ := encodeCommitRecord_eq h
  set header := ofFields (commitRecord transactionId generation contextDigest chunks) with hheader
  have hitems : header.items = commitRecord transactionId generation contextDigest chunks := items_ofFields_commitRecord
  have hget : ∀ name value, (text name, value) ∈ header.items → get (ofFields (sortNames header.items)) name = value := by
    intro name value hmem
    have hvalue : get header name = value := get_eq hmem rfl
    exact (congrArg (fun found : Option Json => found.getD .null) (get?_ofFields_sortNames (text name)).symm).trans hvalue
  rw [hitems] at hget
  have htransaction := hget "transaction_id" transactionId mem_cons_self
  have hgeneration := hget "generation" generation (mem_cons_of_mem _ mem_cons_self)
  have hcontext := hget "context_digest" contextDigest (mem_cons_of_mem _ (mem_cons_of_mem _ mem_cons_self))
  have hchunkDigests := hget "chunk_digests" (.arr chunks)
    (mem_cons_of_mem _ (mem_cons_of_mem _ (mem_cons_of_mem _ mem_cons_self)))
  have hkeys : ∀ key, key ∈ (ofFields (sortNames (commitRecord transactionId generation contextDigest chunks))).keys ↔
      key ∈ recordFields.map text := by
    intro key
    rw [← hitems, Dict.keys, items_ofFields_sortNames, ((perm_sortNames header.items).map Prod.fst).mem_iff, hitems]
    exact Iff.rfl
  have hnames : hasNames (ofFields (sortNames (commitRecord transactionId generation contextDigest chunks))) recordFields = true :=
    hasNames_iff.mpr ⟨fun key hkey => (hkeys key).mp hkey, fun name hname => (hkeys _).mpr (List.mem_map_of_mem hname)⟩
  have hlegible : Legible p (p.depth + 2) (dumps p (.obj (commitRecord transactionId generation contextDigest chunks)))
      (.obj (sortNames (commitRecord transactionId generation contextDigest chunks))) :=
    legible_obj (List.cons_ne_nil _ _) (hitems ▸ header.nodup) (legible_commitRecord hne hvalid hchunks hwritable)
  refine ⟨ofFields (sortNames (commitRecord transactionId generation contextDigest chunks)), ?_, htransaction, hgeneration, hcontext,
    hchunkDigests, hnames⟩
  unfold decodeCommitRecord
  rw [hencoded, hlegible.loads]
  dsimp only
  rw [if_pos hnames, hchunkDigests, htransaction, hgeneration, hcontext]
  cases chunks with
  | nil => exact absurd rfl hne
  | cons =>
    dsimp only
    rw [h]
    dsimp only
    rw [if_pos hencoded]

/-- A commit record that is decoded was received in its encoding. -/
theorem encode_decodeCommitRecord (h : decodeCommitRecord p encoded = .ok record) : hasNames record recordFields = true ∧
    ∃ chunks, get record "chunk_digests" = .arr chunks ∧
      encodeCommitRecord p (get record "transaction_id") (get record "generation") (get record "context_digest") chunks = .ok encoded := by
  unfold decodeCommitRecord at h
  split at h
  · cases h
  · cases h
  · next fields hloads =>
    by_cases hnames : hasNames (ofFields fields) recordFields = true
    · rw [if_pos hnames] at h
      split at h
      · next chunk chunks hchunks =>
        split at h
        · cases h
        next expected hexpected =>
        split at h
        case isTrue hsame =>
          cases h
          exact ⟨hnames, _, hchunks, hsame ▸ hexpected⟩
        case isFalse => cases h
      · cases h
    · rw [if_neg hnames] at h
      cases h
  · cases h

/-- Framing is canonical, and independent of how a stream is cut. -/
structure Canonical (p : Interpreter) (b : Bounds) : Prop where
  /-- Encoded frames that fit are decoded from every cutting into fragments that fit, and nothing is left. -/
  decodes : ∀ frames wire cuts, List.Forall₂ (fun (frame : Frame) encoded => frame.encode p = .ok encoded ∧ encoded.length ≤ b.maxFrameBytes)
    frames wire → cuts.flatten = wire.flatten → (frameStreamDecoder p b).Fits [] cuts →
      ∃ found, (frameStreamDecoder p b).feeds [] cuts = (.ok found, []) ∧ List.Forall₂ Frame.Same frames found
  /-- The buffer stays within its bound, whatever arrives. -/
  bounded : ∀ buffer data, buffer.length ≤ b.maxBufferBytes → ((frameStreamDecoder p b).feed buffer data).2.length ≤ b.maxBufferBytes
  /-- What is accepted is the encodings of the frames that it gave, and the part of one that is left. -/
  canonical : ∀ cuts found rest, (frameStreamDecoder p b).feeds [] cuts = (.ok found, rest) →
    ∃ wire, List.Forall₂ (fun (frame : Frame) encoded => frame.encode p = .ok encoded) found wire ∧ cuts.flatten = wire.flatten ++ rest
  /-- An encoded commit record is decoded to its parts. -/
  recorded : ∀ transactionId generation contextDigest chunks encoded,
    encodeCommitRecord p transactionId generation contextDigest chunks = .ok encoded →
      ∃ record, decodeCommitRecord p encoded = .ok record ∧ get record "transaction_id" = transactionId ∧
        get record "generation" = generation ∧ get record "context_digest" = contextDigest ∧
          get record "chunk_digests" = .arr chunks ∧ hasNames record recordFields = true
  encoded : ∀ encoded record, decodeCommitRecord p encoded = .ok record → hasNames record recordFields = true ∧
    ∃ chunks, get record "chunk_digests" = .arr chunks ∧
      encodeCommitRecord p (get record "transaction_id") (get record "generation") (get record "context_digest") chunks = .ok encoded

/-- Framing is canonical under every interpreter and all bounds. -/
theorem framing_canonical (p : Interpreter) (b : Bounds) : Canonical p b where
  decodes := by
    intro frames wire cuts hwire hcuts hfits
    refine takes_encode.feeds hwire hcuts (fun encoded hencoded hprefix => ?_) hfits
    cases hwire with
    | nil => cases hencoded
    | cons hencode hwire =>
      cases hencoded
      exact takes_encode.nonempty _ _ hencode (List.prefix_nil.mp hprefix)
  bounded := fun buffer data hbuffer => gives_encode.length_feed hbuffer
  canonical := by
    intro cuts found rest hfeeds
    obtain ⟨wire, hwire, hsplit⟩ := gives_encode.feeds (congrArg Prod.fst hfeeds)
    rw [hfeeds] at hsplit
    exact ⟨wire, hwire.imp fun _ _ h => h.1, hsplit⟩
  recorded := fun _ _ _ _ _ h => decode_encodeCommitRecord h
  encoded := fun _ _ h => encode_decodeCommitRecord h

/-- An abort with a reason that is not ASCII. -/
def abortFrame : Frame where
  frameType := .abort
  header := ofFields [(text "transaction_id", .str (List.replicate 32 97)), (text "generation", .int 0), (text "sequence", .int 0),
    (text "reason", .str (text "größer 🙂"))]
  payload := []
  valid := rfl

/-- An interpreter with the usual limits. -/
def usual : Interpreter := ⟨4300, 900, id⟩

/-- Bounds of a few kilobytes. -/
def small : Bounds := ⟨4096, 8192, by norm_num, by norm_num⟩

/-- The abort on the wire. -/
def abortBytes : Bytes := framePrefix .abort 122 0 ++ toBytes (dumps usual (.obj abortFrame.header.items))

/-- The abort arrives in two fragments, cut in its header. -/
theorem framing_canonical_abort : ∃ found, (frameStreamDecoder usual small).feeds [] [abortBytes.take 60, abortBytes.drop 60] = (.ok found, []) ∧
    List.Forall₂ Frame.Same [abortFrame] found := by
  have hencode : abortFrame.encode usual = .ok abortBytes := by
    have hwritable : (abortFrame.header.items.all fun field => usual.writable field.2) = true := by decide +kernel
    have hheader : (toBytes (dumps usual (.obj abortFrame.header.items))).length = 122 := by decide +kernel
    unfold Frame.encode
    dsimp only
    rw [if_pos hwritable, hheader, if_neg (by decide)]
    exact congrArg Except.ok (List.append_nil _)
  have hlength : abortBytes.length ≤ 4096 := by decide +kernel
  have hfits : (frameStreamDecoder usual small).Fits [] [abortBytes.take 60, abortBytes.drop 60] := by
    refine ⟨?_, ?_, trivial⟩
    · decide +kernel
    · decide +kernel
  exact (framing_canonical usual small).decodes [abortFrame] [abortBytes] _ (.cons ⟨hencode, hlength⟩ .nil) (by simp) hfits

end SparkRing.FrameCodec
