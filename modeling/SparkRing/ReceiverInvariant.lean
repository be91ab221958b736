import SparkRing.ReceiverEffects

/-!
# What a receiver keeps true

Through every frame and every expiry a receiver stays within its bounds, remembers
the generation of each active transaction, and holds for each staged chunk a payload
that hashes to its digest.
-/

namespace SparkRing.Replication

open OrderedDict

variable {τ : Type} {host : Host τ} {config : ReceiverConfig} {r : Receiver τ} {frame : Frame} {now : τ} {key : Key}
  {transaction changed : ReceiveTransaction τ} {fingerprint digest : String} {replica : CommittedReplica} {payload : Bytes} {index : ℕ}

/-- A chunk as the receiver keeps it: with its payload, or without where a callback took it. -/
def Kept (host : Host τ) (config : ReceiverConfig) (chunk : String × Option Bytes) : Prop :=
  if config.onChunk then chunk.2 = none else ∃ payload, chunk.2 = some payload ∧ host.sha256 payload = chunk.1

/-- What holds between two frames. -/
structure Inv (host : Host τ) (config : ReceiverConfig) (r : Receiver τ) : Prop where
  /-- Transactions are listed under their own keys. -/
  keyed : Keyed r
  /-- The generation of an active transaction is the newest remembered one. -/
  latest : ∀ key transaction, r.active.get? key = some transaction →
    r.latestGeneration.get? key.transactionId = some key.generation
  /-- Chunks are kept as they should. -/
  chunks : ∀ key transaction index chunk, r.active.get? key = some transaction → transaction.chunks.get? index = some chunk →
    Kept host config chunk
  apart : ∀ key transaction, r.active.get? key = some transaction → r.committed.get? key = none
  activeTransactions : r.active.size ≤ config.maxActiveTransactions
  stagedBytes : r.stagedBytes ≤ config.maxStagedBytes
  stagedChunks : r.stagedChunks ≤ config.maxStagedChunks

theorem inv_init : Inv host config ({} : Receiver τ) where
  keyed := fun _ _ h => nomatch h
  latest := fun _ _ h => nomatch h
  chunks := fun _ _ _ _ h => nomatch h
  apart := fun _ _ h => nomatch h
  activeTransactions := Nat.zero_le _
  stagedBytes := Nat.zero_le _
  stagedChunks := Nat.zero_le _

/-- Dropping transactions keeps the invariant. -/
theorem Inv.filter {p : Key × ReceiveTransaction τ → Bool} (h : Inv host config r) :
    Inv host config { r with active := r.active.filter p } where
  keyed := fun key transaction hget => h.keyed key transaction (Dict.get?_filter_eq_some.mp hget).1
  latest := fun key transaction hget => h.latest key transaction (Dict.get?_filter_eq_some.mp hget).1
  chunks := fun key transaction index chunk hget => h.chunks key transaction index chunk (Dict.get?_filter_eq_some.mp hget).1
  apart := fun key transaction hget => h.apart key transaction (Dict.get?_filter_eq_some.mp hget).1
  activeTransactions := Dict.size_filter_le.trans h.activeTransactions
  stagedBytes := Dict.total_filter_le.trans h.stagedBytes
  stagedChunks := Dict.total_filter_le.trans h.stagedChunks

theorem Inv.discard (h : Inv host config r) (key : Key) : Inv host config (r.discard key) := h.filter

theorem Inv.expireInactive (h : Inv host config r) (now : τ) : Inv host config (r.expireInactive host now) := h.filter

theorem Inv.supersede (h : Inv host config r) (key : Key) : Inv host config (r.supersede key) := by
  unfold Receiver.supersede
  split
  · exact h
  split
  · exact h.discard _
  · exact h

theorem get?_of_supersede (h : (r.supersede key).active.get? other = some transaction) : r.active.get? other = some transaction := by
  unfold Receiver.supersede at h
  split at h
  · exact h
  split at h
  · exact (Dict.get?_erase_eq_some.mp h).2
  · exact h

/-- A transaction that changes stages what it staged, and more. -/
theorem total_touch {f : ReceiveTransaction τ → ℕ} {more : ℕ}
    (hget : r.active.get? key = some transaction) (hf : f changed = f transaction + more) :
    (r.active.set key changed).total f = r.active.total f + more := by
  rw [Dict.total_set, Dict.total_erase hget, hf]
  omega

/-- Noting activity stages nothing. -/
theorem staged_touch (hget : r.active.get? transaction.key = some transaction) :
    (r.touch transaction now).stagedBytes = r.stagedBytes ∧ (r.touch transaction now).stagedChunks = r.stagedChunks := by
  have hsame : ∀ f : ReceiveTransaction τ → ℕ, f { transaction with lastActivity := now } = f transaction →
      (r.touch transaction now).active.total f = r.active.total f := fun f hf =>
    (total_touch hget (hf.trans (Nat.add_zero _).symm)).trans (Nat.add_zero _)
  exact ⟨hsame _ rfl, hsame _ rfl⟩

/-- An active transaction changes into one that keeps its chunks as it should, within the
bounds. -/
theorem Inv.change (h : Inv host config r) (hget : r.active.get? key = some transaction)
    (hkey : changed.key = key) (hchunks : ∀ index chunk, changed.chunks.get? index = some chunk → Kept host config chunk)
    (hbytes : (r.active.set key changed).total ReceiveTransaction.stagedBytes ≤ config.maxStagedBytes)
    (hframes : (r.active.set key changed).total ReceiveTransaction.stagedChunks ≤ config.maxStagedChunks) :
    Inv host config { r with active := r.active.set key changed } := by
  have hcases : ∀ other found, (r.active.set key changed).get? other = some found →
      other = key ∧ found = changed ∨ r.active.get? other = some found := by
    intro other found hfound
    rw [Dict.get?_set] at hfound
    split_ifs at hfound with hother
    · rw [Option.some.injEq] at hfound
      exact .inl ⟨hother, hfound.symm⟩
    · exact .inr hfound
  constructor
  case keyed =>
    intro other found hfound
    rcases hcases other found hfound with ⟨rfl, rfl⟩ | hold
    · exact hkey
    · exact h.keyed other found hold
  case latest =>
    intro other found hfound
    rcases hcases other found hfound with ⟨rfl, rfl⟩ | hold
    · exact h.latest _ _ hget
    · exact h.latest other found hold
  case chunks =>
    intro other found index chunk hfound hchunk
    rcases hcases other found hfound with ⟨rfl, rfl⟩ | hold
    · exact hchunks index chunk hchunk
    · exact h.chunks other found index chunk hold hchunk
  case apart =>
    intro other found hfound
    rcases hcases other found hfound with ⟨rfl, rfl⟩ | hold
    · exact h.apart _ _ hget
    · exact h.apart other found hold
  case activeTransactions => exact (Dict.size_set_of_some hget).trans_le h.activeTransactions
  case stagedBytes => exact hbytes
  case stagedChunks => exact hframes

/-- Noting activity keeps the invariant. -/
theorem Inv.touch (h : Inv host config r) (hget : r.active.get? key = some transaction) : Inv host config (r.touch transaction now) := by
  obtain rfl := h.keyed key transaction hget
  obtain ⟨hbytes, hframes⟩ : (r.touch transaction now).stagedBytes = r.stagedBytes ∧
      (r.touch transaction now).stagedChunks = r.stagedChunks := staged_touch hget
  refine h.change hget rfl (fun index chunk hchunk => h.chunks _ transaction index chunk hget hchunk) ?_ ?_
  · exact hbytes.trans_le h.stagedBytes
  · exact hframes.trans_le h.stagedChunks

/-- A chunk within the bounds. -/
theorem not_exceeds {payload : Option Bytes} (h : r.exceeds config payload = false) :
    r.stagedBytes + (payload.map List.length).getD 0 ≤ config.maxStagedBytes ∧
      (r.stagedChunks + if payload.isSome then 1 else 0) ≤ config.maxStagedChunks := by
  simp only [Receiver.exceeds, Bool.or_eq_false_iff, decide_eq_false_iff_not, Nat.not_lt] at h
  exact h

/-- A free place takes a chunk: everything else stays. -/
theorem total_put {f : String × Option Bytes → ℕ} {chunk : String × Option Bytes} (hfree : transaction.chunks.get? index = none) :
    (transaction.chunks.set index chunk).total f = transaction.chunks.total f + f chunk := by
  rw [Dict.total_set, Dict.total_erase_of_none hfree, Nat.add_comm]

theorem kept_stagedPayload (h : host.sha256 payload = digest) : Kept host config (digest, stagedPayload config payload) := by
  unfold Kept stagedPayload
  split
  · rfl
  · exact ⟨payload, rfl, h⟩

/-- Staging a chunk within the bounds keeps the invariant. -/
theorem Inv.put {entered : Option Callback}
    (h : Inv host config r) (hstages : Stages host config r frame transaction index digest payload fingerprint entered)
    (hbounds : r.exceeds config (stagedPayload config payload) = false) :
    Inv host config (r.touch (transaction.put config index digest payload frame.sequence fingerprint) now) := by
  have hget := hstages.active
  have hkey := h.keyed _ _ hget
  obtain ⟨hbytes, hframes⟩ := not_exceeds hbounds
  rw [← hkey] at hget
  refine h.change hget rfl (fun place chunk hchunk => ?_) ?_ ?_
  · rw [ReceiveTransaction.put, Dict.get?_set] at hchunk
    split_ifs at hchunk with hplace
    · rw [Option.some.injEq] at hchunk
      exact hchunk ▸ kept_stagedPayload hstages.hashed
    · exact h.chunks _ _ place chunk hget hchunk
  · refine (total_touch hget (total_put hstages.free)).trans_le ?_
    exact hbytes
  · refine (total_touch hget (total_put hstages.free)).trans_le ?_
    exact hframes

/-- Trimming keeps the generations of active transactions. -/
theorem get?_trimGenerations {limit turns : ℕ} {active : Dict Key (ReceiveTransaction τ)} {latest : Dict String ℕ}
    (hactive : key ∈ active.keys) : (trimGenerations limit active turns latest).get? key.transactionId = latest.get? key.transactionId := by
  induction turns generalizing latest with
  | zero => rfl
  | succ turns ih =>
    rw [trimGenerations]
    split
    · rfl
    split
    · rfl
    next removable hfind =>
      rw [ih, Dict.get?_erase_of_ne]
      rintro rfl
      have hnone := List.find?_some hfind
      rw [Bool.not_eq_true', List.any_eq_false] at hnone
      exact hnone key hactive (decide_eq_true rfl)

/-- A remembered commit is the new one or was remembered. -/
theorem get?_rememberCommit {found : CommittedReplica} (h : (r.rememberCommit config replica).committed.get? key = some found) :
    key = replica.key ∧ found = replica ∨ r.committed.get? key = some found := by
  have hset := Dict.get?_of_trimOldest h
  rw [Dict.get?_moveToEnd, Dict.get?_set] at hset
  split_ifs at hset with hkey
  · rw [Option.some.injEq] at hset
    exact .inl ⟨hkey, hset.symm⟩
  · exact .inr hset

theorem Inv.rememberCommit (h : Inv host config r) (hgone : r.active.get? replica.key = none) :
    Inv host config (r.rememberCommit config replica) := { h with
  apart := fun key transaction hget => by
    refine Option.eq_none_iff_forall_ne_some.mpr fun found hfound => ?_
    rcases get?_rememberCommit hfound with ⟨rfl, -⟩ | hold
    · exact absurd (hgone.symm.trans hget) nofun
    · rw [h.apart key transaction hget] at hold
      cases hold }

/-- Nothing of the identifier is active after its newest generation was superseded, where the
frame is not older and its own transaction is not active. -/
theorem Inv.supersede_get? (h : Inv host config r) (hcurrent : r.checkGeneration key = true) (hnone : r.active.get? key = none)
    {other : Key} {found : ReceiveTransaction τ} (hother : other.transactionId = key.transactionId) :
    (r.supersede key).active.get? other ≠ some found := by
  intro hfound
  have hactive : r.active.get? other = some found := by
    unfold Receiver.supersede at hfound
    split at hfound
    · exact hfound
    split at hfound
    · exact (Dict.get?_erase_eq_some.mp hfound).2
    · exact hfound
  have hlatest := h.latest other found hactive
  rw [hother] at hlatest
  simp only [Receiver.checkGeneration, hlatest, decide_eq_true_eq] at hcurrent
  simp only [Receiver.supersede, hlatest] at hfound
  by_cases hlt : other.generation < key.generation
  · rw [if_pos hlt, ← hother] at hfound
    exact (Dict.get?_erase_eq_some.mp hfound).1 rfl
  have hgeneration : other.generation = key.generation := by omega
  have hsame : other = key := by
    cases other
    cases key
    simp_all
  rw [hsame, hnone] at hactive
  cases hactive

/-- Opening a transaction keeps the invariant. -/
theorem Inv.open {contextDigest identityDigest : String} (h : Inv host config r)
    (hcurrent : r.checkGeneration key = true) (hcommitted : r.committed.get? key = none) (hnone : r.active.get? key = none)
    (hroom : (r.supersede key).active.size < config.maxActiveTransactions) {sequence : ℕ} :
    Inv host config (Receiver.rememberGeneration config
      { r.supersede key with
        active := (r.supersede key).active.set key
          (openTransaction key contextDigest identityDigest sequence fingerprint now) } key) := by
  have hsuper := h.supersede key
  have hsame : (r.supersede key).committed = r.committed ∧ (r.supersede key).latestGeneration = r.latestGeneration := by
    unfold Receiver.supersede
    split
    · exact ⟨rfl, rfl⟩
    · split <;> exact ⟨rfl, rfl⟩
  have hnew : (r.supersede key).active.get? key = none :=
    Option.eq_none_iff_forall_ne_some.mpr fun _ => h.supersede_get? hcurrent hnone rfl
  generalize hopened : openTransaction key contextDigest identityDigest sequence fingerprint now = opened
  have hkey : opened.key = key := hopened ▸ rfl
  have hempty : opened.chunks = Dict.empty := hopened ▸ rfl
  have hcases : ∀ other found, ((r.supersede key).active.set key opened).get? other = some found →
      other = key ∧ found = opened ∨ other.transactionId ≠ key.transactionId ∧ (r.supersede key).active.get? other = some found := by
    intro other found hfound
    rw [Dict.get?_set] at hfound
    split_ifs at hfound with hother
    · rw [Option.some.injEq] at hfound
      exact .inl ⟨hother, hfound.symm⟩
    · exact .inr ⟨fun hid => h.supersede_get? hcurrent hnone hid hfound, hfound⟩
  have htotal : ∀ f : ReceiveTransaction τ → ℕ, f opened = 0 →
      ((r.supersede key).active.set key opened).total f = (r.supersede key).active.total f := by
    intro f hf
    rw [Dict.total_set, Dict.total_erase_of_none hnew, hf, Nat.zero_add]
  constructor
  case keyed =>
    intro other found hfound
    rcases hcases other found hfound with ⟨rfl, rfl⟩ | ⟨-, hold⟩
    · exact hkey
    · exact hsuper.keyed other found hold
  case latest =>
    intro other found hfound
    refine (get?_trimGenerations (Dict.mem_keys_iff.mpr ⟨found, hfound⟩)).trans ?_
    rw [Dict.get?_moveToEnd, Dict.get?_set]
    rcases hcases other found hfound with ⟨rfl, rfl⟩ | ⟨hid, hold⟩
    · rw [if_pos rfl]
    · rw [if_neg hid]
      exact hsuper.latest other found hold
  case chunks =>
    intro other found index chunk hfound hchunk
    rcases hcases other found hfound with ⟨rfl, rfl⟩ | ⟨-, hold⟩
    · rw [hempty] at hchunk
      cases hchunk
    · exact hsuper.chunks other found index chunk hold hchunk
  case apart =>
    intro other found hfound
    rcases hcases other found hfound with ⟨rfl, rfl⟩ | ⟨-, hold⟩
    · exact (congrArg (Dict.get? · _) hsame.1).trans hcommitted
    · exact hsuper.apart other found hold
  case activeTransactions =>
    refine (Dict.size_set_of_none hnew).trans_le ?_
    omega
  case stagedBytes =>
    refine (htotal _ ?_).trans_le hsuper.stagedBytes
    rw [ReceiveTransaction.stagedBytes, hempty]
    rfl
  case stagedChunks =>
    refine (htotal _ ?_).trans_le hsuper.stagedChunks
    rw [ReceiveTransaction.stagedChunks, hempty]
    rfl

end SparkRing.Replication
