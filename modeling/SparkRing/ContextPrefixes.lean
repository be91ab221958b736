import SparkRing.ContextDigest
import SparkRing.SelfDelimiting

/-!
# Prefix digests identify prefixes

What is hashed for a prefix determines its tokens and its media: ids below `2 ^ 24` leave the
fourth byte of a token zero, where the domain of the media has a letter, and the parts of the
media are self-delimiting. The one-pass digests are those of the prefixes one by one.
-/

namespace SparkRing.ContextDigest

open Delimited
open JsonText (Bytes Text Scalar)
open List (append_assoc flatMap_cons map_map map_take)

variable {n m width count tokenCount : ℕ} {feature : Feature} {features features' : List Feature} {ids ids' : List ℕ}
  {x y : Bytes} (digest : Hasher)

theorem length_little : ∀ width n, (little width n).length = width
  | 0, _ => rfl
  | width + 1, n => congrArg (· + 1) (length_little width (n / 256))

/-- A number below the width's range is known from its bytes. -/
theorem little_inj : ∀ {width n m}, n < 256 ^ width → m < 256 ^ width → little width n = little width m → n = m := by
  intro width
  induction width with
  | zero =>
    intro n m hn hm _
    omega
  | succ width ih =>
    intro n m hn hm h
    obtain ⟨hfirst, hrest⟩ := List.cons.inj h
    have hbyte : n % 256 = m % 256 := by
      have hnat := congrArg UInt8.toNat hfirst
      rwa [UInt8.toNat_ofNat', UInt8.toNat_ofNat'] at hnat
    have hquotient : n / 256 = m / 256 := ih (by omega) (by omega) hrest
    omega

/-- Numbers of a fixed width are self-delimiting. -/
theorem delimited_little : SelfDelimiting (· < 256 ^ width) (little width) :=
  of_length (fun n _ => length_little width n) fun _ _ hn hm => little_inj hn hm

/-- The characters of scalars are their code points. -/
theorem toNat_ofNat_scalar {c : ℕ} (h : Scalar c) : (Char.ofNat c).toNat = c := by
  have hvalid : c.isValidChar := by
    rcases h with h | h
    · exact Or.inl h
    · exact Or.inr ⟨by omega, h.2⟩
  rw [Char.ofNat, dif_pos hvalid]
  rfl

/-- The characters of a text are known from its bytes. -/
theorem encodeUtf8_inj {a b : Text} {bytes : Bytes} (ha : encodeUtf8 a = some bytes) (hb : encodeUtf8 b = some bytes) : a = b := by
  unfold encodeUtf8 at ha hb
  split_ifs at ha hb with hscalars hscalars'
  have hchars : ∀ {a : Text}, (a.all fun c => decide (Scalar c)) = true →
      a = (a.map Char.ofNat).map Char.toNat := by
    intro a hall
    rw [map_map]
    refine (List.map_congr_left ?_).trans (List.map_id a) |>.symm
    intro c hc
    exact toNat_ofNat_scalar (of_decide_eq_true (List.all_eq_true.mp hall c hc))
  have hbytes : (a.map Char.ofNat).flatMap String.utf8EncodeChar = (b.map Char.ofNat).flatMap String.utf8EncodeChar := by
    rw [List.flatMap_map, List.flatMap_map]
    exact (Option.some.inj ha).trans (Option.some.inj hb).symm
  have hdecoded : some (a.map Char.ofNat).toArray = some (b.map Char.ofNat).toArray := by
    rw [← List.utf8Decode?_utf8Encode, ← List.utf8Decode?_utf8Encode, List.utf8Encode, List.utf8Encode, hbytes]
  have hlists : a.map Char.ofNat = b.map Char.ofNat := by
    simpa using hdecoded
  rw [hchars hscalars, hchars hscalars', hlists]

/-- Features of the same content and range are the same. -/
theorem Feature.ext_of (a b : Feature) (hmodality : a.modalityBytes = b.modalityBytes)
    (hidentifier : a.identifierBytes = b.identifierBytes) (hoffset : a.offset = b.offset) (hlength : a.length = b.length) : a = b := by
  have hfirst : a.modality = b.modality := encodeUtf8_inj a.modality_utf8 (hmodality ▸ b.modality_utf8)
  have hsecond : a.identifier = b.identifier := encodeUtf8_inj a.identifier_utf8 (hidentifier ▸ b.identifier_utf8)
  cases a
  cases b
  subst hmodality hidentifier hoffset hlength hfirst hsecond
  rfl

/-- A feature is self-delimiting: its texts stand behind their lengths. -/
theorem delimited_feature : SelfDelimiting (fun _ => True) Feature.bytes := by
  intro a b _ _ x y h
  simp only [Feature.bytes, append_assoc] at h
  have hwide : ∀ feature : Feature, feature.offset < 256 ^ 8 ∧ feature.length < 256 ^ 8 := by
    intro feature
    have hstop := feature.stop_lt
    omega
  have hnarrow : ∀ feature : Feature, feature.modalityBytes.length < 256 ^ 4 ∧ feature.identifierBytes.length < 256 ^ 4 := by
    intro feature
    exact ⟨feature.modality_size, feature.identifier_size⟩
  obtain ⟨hoffset, h⟩ := delimited_little _ _ (hwide a).1 (hwide b).1 _ _ h
  obtain ⟨hlength, h⟩ := delimited_little _ _ (hwide a).2 (hwide b).2 _ _ h
  obtain ⟨hmodality, h⟩ := delimited_little _ _ (hnarrow a).1 (hnarrow b).1 _ _ h
  obtain ⟨hidentifier, h⟩ := delimited_little _ _ (hnarrow a).2 (hnarrow b).2 _ _ h
  obtain ⟨hfirst, h⟩ := List.append_inj h hmodality
  obtain ⟨hsecond, h⟩ := List.append_inj h hidentifier
  exact ⟨Feature.ext_of a b hfirst hsecond hoffset hlength, h⟩

/-- The bytes that stand for the media of a prefix. -/
def mediaBytes (features : List Feature) : Bytes :=
  if features = [] then [] else multimodalDigestDomain ++ little 4 features.length ++ features.flatMap Feature.bytes

/-- Feeding parts one by one feeds their concatenation. -/
theorem fed_foldl : (features.foldl (fun digest feature => digest.update feature.bytes) digest).fed =
    digest.fed ++ features.flatMap Feature.bytes := by
  induction features generalizing digest with
  | nil => exact (List.append_nil _).symm
  | cons feature features ih =>
    rw [List.foldl_cons, ih, flatMap_cons, ← append_assoc]
    rfl

theorem fed_extend : (extendWithMultimodalIdentity digest features count).fed = digest.fed ++ mediaBytes (active features count) := by
  unfold extendWithMultimodalIdentity mediaBytes
  by_cases hnone : active features count = []
  · rw [if_pos hnone, if_pos hnone, List.append_nil]
  · rw [if_neg hnone, if_neg hnone, fed_foldl]
    simp only [Hasher.update, append_assoc]

/-- The fourth byte of the media's bytes is a letter. -/
theorem mediaBytes_third (h : features ≠ []) : (mediaBytes features)[3]? = some 97 := by
  unfold mediaBytes
  rw [if_neg h]
  rfl

/-- The media are known from their bytes. -/
theorem mediaBytes_inj (hcount : features.length < 2 ^ 32) (hcount' : features'.length < 2 ^ 32)
    (h : mediaBytes features = mediaBytes features') : features = features' := by
  have hthird := fun (features : List Feature) (h : features ≠ []) => mediaBytes_third h
  have hempty : mediaBytes [] = [] := rfl
  cases features with
  | nil =>
    cases features' with
    | nil => rfl
    | cons feature features' =>
      have hletter := hthird (feature :: features') (by simp)
      rw [← h, hempty] at hletter
      cases hletter
  | cons feature features =>
    cases features' with
    | nil =>
      have hletter := hthird (feature :: features) (by simp)
      rw [h, hempty] at hletter
      cases hletter
    | cons =>
      unfold mediaBytes at h
      rw [if_neg (by simp), if_neg (by simp), append_assoc, append_assoc] at h
      have hpow : 256 ^ 4 = 2 ^ 32 := by norm_num
      obtain ⟨hlength, hrest⟩ := delimited_little _ _ (hpow ▸ hcount) (hpow ▸ hcount') _ _ (List.append_cancel_left h)
      have hparts := delimited_feature.flatMap (x := []) (y := []) hlength (fun _ _ => trivial) (fun _ _ => trivial)
        (by simpa using hrest)
      exact hparts.1

/-- A token's fourth byte is zero. -/
theorem little_third {id : ℕ} (h : id < 2 ^ 24) : (little 4 id ++ x)[3]? = some 0 := by
  have hzero : id / 256 / 256 / 256 = 0 := by omega
  show some (UInt8.ofNat (id / 256 / 256 / 256)) = some 0
  rw [hzero]
  rfl

/-- Where one prefix has fewer tokens than the other, its bytes go on with media while the
other's go on with a token, and the fourth byte tells them apart. -/
theorem length_le_of_bytes (hids : ∀ id ∈ ids, id < 2 ^ 24) (hids' : ∀ id ∈ ids', id < 2 ^ 24)
    (h : rawBytes ids ++ mediaBytes features = rawBytes ids' ++ mediaBytes features') : ids'.length ≤ ids.length := by
  by_contra hmore
  have hlt : ids.length < ids'.length := Nat.lt_of_not_le hmore
  have hsplit := List.take_append_drop ids.length ids'
  have hwide : ∀ id, id < 2 ^ 24 → id < 256 ^ 4 := fun id hid => Nat.lt_trans hid (by norm_num)
  have htake : rawBytes ids' = rawBytes (ids'.take ids.length) ++ rawBytes (ids'.drop ids.length) := by
    rw [rawBytes, rawBytes, rawBytes, ← List.flatMap_append, hsplit]
  rw [htake, append_assoc] at h
  obtain ⟨_, hrest⟩ := delimited_little.flatMap (by rw [List.length_take, Nat.min_eq_left hlt.le])
    (fun id hid => hwide id (hids id hid)) (fun id hid => hwide id (hids' id (List.mem_of_mem_take hid))) h
  obtain ⟨id, rest, hdrop⟩ : ∃ id rest, ids'.drop ids.length = id :: rest :=
    List.exists_cons_of_ne_nil (List.ne_nil_of_length_pos (by rw [List.length_drop]; omega))
  have hid : id < 2 ^ 24 := hids' id (List.mem_of_mem_drop (hdrop ▸ List.mem_cons_self))
  have hzero : (mediaBytes features)[3]? = some 0 := by
    rw [hrest, hdrop, rawBytes, flatMap_cons, append_assoc]
    exact little_third hid
  cases features with
  | nil => cases hzero
  | cons =>
    cases hzero

/-- The tokens and the media of a prefix are known from what is hashed for it. -/
theorem bytes_inj (hids : ∀ id ∈ ids, id < 2 ^ 24) (hids' : ∀ id ∈ ids', id < 2 ^ 24) (hcount : features.length < 2 ^ 32)
    (hcount' : features'.length < 2 ^ 32)
    (h : rawBytes ids ++ mediaBytes features = rawBytes ids' ++ mediaBytes features') : ids = ids' ∧ features = features' := by
  have hle := length_le_of_bytes hids' hids h.symm
  have hge := length_le_of_bytes hids hids' h
  have hwide : ∀ id, id < 2 ^ 24 → id < 256 ^ 4 := fun id hid => Nat.lt_trans hid (by norm_num)
  obtain ⟨htokens, hmedia⟩ := delimited_little.flatMap (Nat.le_antisymm hle hge)
    (fun id hid => hwide id (hids id hid)) (fun id hid => hwide id (hids' id hid)) h
  exact ⟨htokens, mediaBytes_inj hcount hcount' hmedia⟩

/-- The bytes of the first tokens. -/
theorem rawBytes_take (count : ℕ) : (rawBytes ids).take (count * 4) = rawBytes (ids.take count) := by
  induction ids generalizing count with
  | nil => simp [rawBytes]
  | cons id ids ih =>
    cases count with
    | zero => simp [rawBytes]
    | succ count =>
      have hlength : (little 4 id).length = 4 := length_little 4 id
      rw [List.take_succ_cons, rawBytes, flatMap_cons, rawBytes, flatMap_cons, List.take_append, hlength,
        List.take_of_length_le (by omega), Nat.succ_mul, Nat.add_sub_cancel]
      exact congrArg _ (ih count)

/-- What the hash of a prefix is fed. -/
def fedFor (salt : Bytes) (ids : List ℕ) (features : List Feature) (count : ℕ) : Bytes :=
  salt ++ [0] ++ rawBytes (ids.take count) ++ mediaBytes (active features count)

variable {Digest : Type} {sha256 : Bytes → Digest} {tokenIds : List ℤ} {salt : Text} {saltBytes : Bytes}
  {given : List (Option Given)} {boundaries : List ℤ} {chunkTokens : ℤ}

section

variable (hids : u32Array tokenIds "token_ids" = .ok ids) (hfeatures : validateMultimodalFeatures given ids.length = .ok features)
  (hsalt : encodeAscii salt = .ok saltBytes)

include hids hfeatures hsalt

/-- A prefix of accepted tokens and media has its digest. -/
theorem contextPrefixDigest_eq (hcount : tokenCount ≤ ids.length) :
    contextPrefixDigest sha256 tokenIds salt (some tokenCount) given = .ok (sha256 (fedFor saltBytes ids features tokenCount)) := by
  unfold contextPrefixDigest
  simp only [hids, bind, Except.bind, Option.getD_some, hfeatures, hsalt]
  rw [if_pos ⟨Int.natCast_nonneg _, Int.ofNat_le.mpr hcount⟩]
  simp only [pure, Except.pure, Hasher.hexdigest, fed_extend, Int.toNat_natCast, rawBytes_take]
  rfl

omit hids hfeatures hsalt in
/-- The running hash over the boundaries has, at each of them, been fed the tokens before it. -/
theorem digestBoundaries_eq (hprevious : n ≤ ids.length) (hsorted : boundaries.Pairwise (· < ·))
    (hbounds : ∀ boundary ∈ boundaries, (n : ℤ) < boundary ∧ boundary ≤ ids.length) :
    digestBoundaries sha256 (rawBytes ids) features ⟨saltBytes ++ [0] ++ rawBytes (ids.take n)⟩ n boundaries =
      boundaries.map fun boundary => (boundary, sha256 (fedFor saltBytes ids features boundary.toNat)) := by
  induction boundaries generalizing n with
  | nil => rfl
  | cons boundary boundaries ih =>
    obtain ⟨hfirst, hrest⟩ := List.pairwise_cons.mp hsorted
    obtain ⟨hlow, hhigh⟩ := hbounds boundary List.mem_cons_self
    have hle : n ≤ boundary.toNat := by omega
    have hmore : (Hasher.mk (saltBytes ++ [0] ++ rawBytes (ids.take n))).update
        (((rawBytes ids).take (boundary.toNat * 4)).drop (n * 4)) =
        ⟨saltBytes ++ [0] ++ rawBytes (ids.take boundary.toNat)⟩ := by
      have htake : rawBytes (ids.take n) = (rawBytes (ids.take boundary.toNat)).take (n * 4) := by
        rw [rawBytes_take, List.take_take, Nat.min_eq_left hle]
      rw [Hasher.update, rawBytes_take, htake, append_assoc, List.take_append_drop]
    have hdigest : (extendWithMultimodalIdentity ⟨saltBytes ++ [0] ++ rawBytes (ids.take boundary.toNat)⟩ features
        boundary.toNat).hexdigest sha256 = sha256 (fedFor saltBytes ids features boundary.toNat) := congrArg sha256 (fed_extend _)
    unfold digestBoundaries
    dsimp only
    rw [hmore, List.map_cons, hdigest]
    refine congrArg (_ :: ·) ?_
    refine ih (by omega) hrest fun later hlater => ?_
    have hlt := hfirst later hlater
    have hends := (hbounds later (List.mem_cons_of_mem _ hlater)).2
    omega

omit hids hfeatures hsalt in
/-- Increasing multiples within the tokens pass the checks. -/
theorem checkBoundaries_ok {previous : ℤ} (hsorted : boundaries.Pairwise (· < ·))
    (hbounds : ∀ boundary ∈ boundaries, previous < boundary ∧ 0 < boundary ∧ boundary % chunkTokens = 0 ∧
      boundary ≤ (n : ℤ)) : checkBoundaries chunkTokens n previous boundaries = .ok () := by
  induction boundaries generalizing previous with
  | nil => rfl
  | cons boundary boundaries ih =>
    obtain ⟨hfirst, hrest⟩ := List.pairwise_cons.mp hsorted
    obtain ⟨hlow, hpos, hmultiple, hhigh⟩ := hbounds boundary List.mem_cons_self
    unfold checkBoundaries
    rw [if_neg (by omega), if_neg (by omega), if_neg (by omega)]
    exact ih hrest fun later hlater =>
      ⟨hfirst later hlater, (hbounds later (List.mem_cons_of_mem _ hlater)).2⟩

/-- One pass gives the digests of the prefixes at accepted boundaries. -/
theorem chunkPrefixDigests_eq
    (hchunk : 0 < chunkTokens) (hsorted : boundaries.Pairwise (· < ·))
    (hbounds : ∀ boundary ∈ boundaries, 0 < boundary ∧ boundary % chunkTokens = 0 ∧ boundary ≤ (ids.length : ℤ)) :
    chunkPrefixDigests sha256 tokenIds salt boundaries given chunkTokens =
      .ok (boundaries.map fun boundary => (boundary, sha256 (fedFor saltBytes ids features boundary.toNat))) := by
  have hchecked : checkBoundaries chunkTokens ids.length 0 boundaries = .ok () :=
    checkBoundaries_ok hsorted fun boundary hmem => ⟨(hbounds boundary hmem).1, hbounds boundary hmem⟩
  unfold chunkPrefixDigests
  rw [if_neg (by omega)]
  simp only [hids, bind, Except.bind, hchecked, hfeatures, hsalt]
  cases boundaries with
  | nil => rfl
  | cons boundary boundaries =>
    have hstart : (Hasher.new.update saltBytes).update [0] = ⟨saltBytes ++ [0] ++ rawBytes (ids.take 0)⟩ := by
      simp [Hasher.new, Hasher.update, rawBytes]
    have hpass : digestBoundaries sha256 (rawBytes ids) features ⟨saltBytes ++ [0] ++ rawBytes (ids.take 0)⟩ 0
        (boundary :: boundaries) = _ := digestBoundaries_eq (Nat.zero_le _) hsorted
      fun later hlater => ⟨(hbounds later hlater).1, (hbounds later hlater).2.2⟩
    rw [hstart]
    exact congrArg Except.ok hpass

end

/-- Ids below `2 ^ 24` are packed as they are. -/
theorem u32Array_ok (h : ∀ id ∈ tokenIds, 0 ≤ id ∧ id < 2 ^ 24) :
    u32Array tokenIds "token_ids" = .ok (tokenIds.map Int.toNat) ∧ ∀ id ∈ tokenIds.map Int.toNat, id < 2 ^ 24 := by
  refine ⟨if_pos fun id hid => ⟨(h id hid).1, (h id hid).2.trans (by norm_num)⟩, fun id hid => ?_⟩
  obtain ⟨token, htoken, rfl⟩ := List.mem_map.mp hid
  have hbounds := h token htoken
  omega

/-- As many features are accepted as were given, fewer than `2 ^ 32`. -/
theorem length_validated (h : validateMultimodalFeatures given n = .ok features) : features.length < 2 ^ 32 := by
  have hlengths : ∀ (given : List (Option Given)) previousEnd features, validateFrom n previousEnd given = .ok features →
      features.length = given.length := by
    intro given
    induction given with
    | nil =>
      intro previousEnd features h
      cases h
      rfl
    | cons first given ih =>
      intro previousEnd features h
      unfold validateFrom at h
      cases hfirst : validateFeature n previousEnd first with
      | error =>
        rw [hfirst] at h
        cases h
      | ok feature =>
        rw [hfirst] at h
        cases hrest : validateFrom n feature.stop given with
        | error =>
          simp only [bind, Except.bind, hrest] at h
          cases h
        | ok more =>
          simp only [bind, Except.bind, hrest] at h
          cases h
          exact congrArg (· + 1) (ih _ _ hrest)
  unfold validateMultimodalFeatures at h
  split at h
  · cases h
  rw [hlengths _ _ _ h]
  omega

/-- Two digests for one salt are equal exactly when the token prefixes and the media that start
in them are. -/
theorem contextPrefixDigest_eq_iff {tokenIds' : List ℤ} {given' : List (Option Given)} {accepted accepted' : List Feature}
    {tokenCount' : ℕ} (hsha : Function.Injective sha256) (hsalt : ∀ c ∈ salt, c < 128)
    (hids : ∀ id ∈ tokenIds, 0 ≤ id ∧ id < 2 ^ 24) (hids' : ∀ id ∈ tokenIds', 0 ≤ id ∧ id < 2 ^ 24)
    (hfeatures : validateMultimodalFeatures given tokenIds.length = .ok accepted)
    (hfeatures' : validateMultimodalFeatures given' tokenIds'.length = .ok accepted')
    (hcount : tokenCount ≤ tokenIds.length) (hcount' : tokenCount' ≤ tokenIds'.length) :
    ∃ digest digest', contextPrefixDigest sha256 tokenIds salt (some tokenCount) given = .ok digest ∧
      contextPrefixDigest sha256 tokenIds' salt (some tokenCount') given' = .ok digest' ∧
      (digest = digest' ↔ tokenIds.take tokenCount = tokenIds'.take tokenCount' ∧
        active accepted tokenCount = active accepted' tokenCount') := by
  obtain ⟨hpacked, hsmall⟩ := u32Array_ok hids
  obtain ⟨hpacked', hsmall'⟩ := u32Array_ok hids'
  have hlength : (tokenIds.map Int.toNat).length = tokenIds.length := List.length_map _
  have hlength' : (tokenIds'.map Int.toNat).length = tokenIds'.length := List.length_map _
  have hascii : encodeAscii salt = .ok (salt.map UInt8.ofNat) := if_pos hsalt
  refine ⟨_, _, contextPrefixDigest_eq hpacked (hlength ▸ hfeatures) hascii (hlength ▸ hcount),
    contextPrefixDigest_eq hpacked' (hlength' ▸ hfeatures') hascii (hlength' ▸ hcount'), ?_⟩
  constructor
  · intro hdigest
    have hfed : rawBytes ((tokenIds.map Int.toNat).take tokenCount) ++ mediaBytes (active accepted tokenCount) =
        rawBytes ((tokenIds'.map Int.toNat).take tokenCount') ++ mediaBytes (active accepted' tokenCount') := by
      have hall := hsha hdigest
      unfold fedFor at hall
      rw [append_assoc (_ ++ _), append_assoc (_ ++ _) (rawBytes ((tokenIds'.map Int.toNat).take tokenCount'))] at hall
      exact List.append_cancel_left hall
    have hfew := fun {n : ℕ} {accepted : List Feature} (h : accepted.length < 2 ^ 32) =>
      Nat.lt_of_le_of_lt (List.length_filter_le (fun feature : Feature => decide (feature.offset < n)) accepted) h
    obtain ⟨htokens, hmedia⟩ := bytes_inj (fun id hid => hsmall id (List.mem_of_mem_take hid))
      (fun id hid => hsmall' id (List.mem_of_mem_take hid)) (hfew (length_validated hfeatures))
      (hfew (length_validated hfeatures')) hfed
    refine ⟨?_, hmedia⟩
    have hcast := congrArg (List.map Int.ofNat) htokens
    rw [← map_take, ← map_take, map_map, map_map] at hcast
    have hsame : ∀ {tokenIds : List ℤ} {n : ℕ}, (∀ id ∈ tokenIds, 0 ≤ id ∧ id < 2 ^ 24) →
        (tokenIds.take n).map (Int.ofNat ∘ Int.toNat) = tokenIds.take n := by
      intro tokenIds n h
      refine (List.map_congr_left fun id hid => ?_).trans (List.map_id _)
      exact Int.toNat_of_nonneg (h id (List.mem_of_mem_take hid)).1
    rwa [hsame hids, hsame hids'] at hcast
  · rintro ⟨htokens, hmedia⟩
    unfold fedFor
    rw [← map_take, ← map_take, htokens, hmedia]

/-- With the hash injective and an ASCII salt, for every list of tokens with ids below `2 ^ 24`
and accepted media: the one-pass digests at every accepted list of boundaries are the digests
of the prefixes, and two digests are equal exactly when the token prefixes and the lists of the
media that start in them are. -/
theorem prefix_digests_identify (hsha : Function.Injective sha256) (hsalt : ∀ c ∈ salt, c < 128) :
    (∀ (tokenIds : List ℤ) given accepted boundaries chunkTokens, (∀ id ∈ tokenIds, 0 ≤ id ∧ id < 2 ^ 24) →
      validateMultimodalFeatures given tokenIds.length = .ok accepted → 0 < chunkTokens → boundaries.Pairwise (· < ·) →
      (∀ boundary ∈ boundaries, 0 < boundary ∧ boundary % chunkTokens = 0 ∧ boundary ≤ (tokenIds.length : ℤ)) →
      ∃ result, chunkPrefixDigests sha256 tokenIds salt boundaries given chunkTokens = .ok result ∧
        result.map Prod.fst = boundaries ∧
        ∀ entry ∈ result, contextPrefixDigest sha256 tokenIds salt (some entry.1) given = .ok entry.2) ∧
    (∀ (tokenIds tokenIds' : List ℤ) given given' accepted accepted' (tokenCount tokenCount' : ℕ),
      (∀ id ∈ tokenIds, 0 ≤ id ∧ id < 2 ^ 24) → (∀ id ∈ tokenIds', 0 ≤ id ∧ id < 2 ^ 24) →
      validateMultimodalFeatures given tokenIds.length = .ok accepted →
      validateMultimodalFeatures given' tokenIds'.length = .ok accepted' →
      tokenCount ≤ tokenIds.length → tokenCount' ≤ tokenIds'.length →
      ∃ digest digest', contextPrefixDigest sha256 tokenIds salt (some tokenCount) given = .ok digest ∧
        contextPrefixDigest sha256 tokenIds' salt (some tokenCount') given' = .ok digest' ∧
        (digest = digest' ↔ tokenIds.take tokenCount = tokenIds'.take tokenCount' ∧
          active accepted tokenCount = active accepted' tokenCount')) := by
  constructor
  · intro tokenIds given accepted boundaries chunkTokens hids hfeatures hchunk hsorted hbounds
    obtain ⟨hpacked, _⟩ := u32Array_ok hids
    have hlength : (tokenIds.map Int.toNat).length = tokenIds.length := List.length_map _
    have hascii : encodeAscii salt = .ok (salt.map UInt8.ofNat) := if_pos hsalt
    refine ⟨_, chunkPrefixDigests_eq hpacked (hlength ▸ hfeatures) hascii hchunk hsorted (by simpa using hbounds), ?_, ?_⟩
    · rw [List.map_map]
      exact List.map_id _
    intro entry hentry
    obtain ⟨boundary, hboundary, rfl⟩ := List.mem_map.mp hentry
    obtain ⟨hpos, _, hle⟩ := hbounds boundary hboundary
    have hcast : (boundary.toNat : ℤ) = boundary := Int.toNat_of_nonneg hpos.le
    have hdigest : contextPrefixDigest sha256 tokenIds salt (some boundary.toNat) given = _ :=
      contextPrefixDigest_eq hpacked (hlength ▸ hfeatures) hascii (by omega)
    rwa [hcast] at hdigest
  · intro tokenIds tokenIds' given given' accepted accepted' tokenCount tokenCount' hids hids' hfeatures hfeatures' hcount hcount'
    exact contextPrefixDigest_eq_iff hsha hsalt hids hids' hfeatures hfeatures' hcount hcount'

/-- A picture over two of four tokens. -/
def picture : Given := ⟨.str (JsonText.text "image"), .str (JsonText.text "a"), .int 1, .int 2⟩

/-- With the identity as hash: the prompt with the picture and the text alone have different
digests, and the pass over two boundaries gives the digest of the whole prompt. -/
theorem picture_identified :
    (∃ digest digest', contextPrefixDigest id [1, 2, 3, 4] (JsonText.text "s") (some (4 : ℕ)) [some picture] = .ok digest ∧
      contextPrefixDigest id [1, 2, 3, 4] (JsonText.text "s") (some (4 : ℕ)) [] = .ok digest' ∧ digest ≠ digest') ∧
    (∃ result, chunkPrefixDigests id [1, 2, 3, 4] (JsonText.text "s") [2, 4] [some picture] 2 = .ok result ∧
      result.map Prod.fst = [2, 4] ∧ ∀ entry ∈ result,
        contextPrefixDigest id [1, 2, 3, 4] (JsonText.text "s") (some entry.1) [some picture] = .ok entry.2) := by
  obtain ⟨accepted, hpicture, hactive⟩ : ∃ accepted, validateMultimodalFeatures [some picture] 4 = .ok accepted ∧
      (active accepted 4).length = 1 := ⟨_, rfl, rfl⟩
  have hnone : validateMultimodalFeatures [] 4 = .ok [] := rfl
  have hids : ∀ token ∈ ([1, 2, 3, 4] : List ℤ), 0 ≤ token ∧ token < 2 ^ 24 := by decide
  obtain ⟨hpass, hidentify⟩ := @prefix_digests_identify Bytes id (JsonText.text "s") Function.injective_id (by decide)
  constructor
  · obtain ⟨digest, digest', hdigest, hdigest', hiff⟩ := hidentify [1, 2, 3, 4] [1, 2, 3, 4] [some picture] [] accepted [] 4 4
      hids hids hpicture hnone (by decide) (by decide)
    refine ⟨digest, digest', hdigest, hdigest', fun hsame => ?_⟩
    have hmedia := (hiff.mp hsame).2
    rw [hmedia] at hactive
    cases hactive
  · exact hpass [1, 2, 3, 4] [some picture] accepted [2, 4] 2 hids hpicture (by decide) (by decide) (by decide)

end SparkRing.ContextDigest
