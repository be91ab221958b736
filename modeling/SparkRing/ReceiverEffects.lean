import SparkRing.BuddyReceiver

/-!
# What handling a frame can do

Whatever a frame says, handling it leaves the receiver as it is, drops a transaction,
notes its activity, opens one, stages one chunk or publishes one replica. Each of
these comes with everything that was checked before it, and so does each callback.
-/

namespace SparkRing.Replication

open OrderedDict

variable {τ : Type} {host : Host τ} {config : ReceiverConfig} {r : Receiver τ} {frame : Frame} {now : τ} {outcome : CallbackOutcome}
  {transaction : ReceiveTransaction τ} {payload : Bytes} {ordered : List (String × Option Bytes)} {entered : Option Callback}
  {digest : String} {index : ℕ}

/-- What was checked before a replica is published: the active transaction holds exactly
the chunks in order, and the canonical commit record names them. -/
structure Verified (host : Host τ) (r : Receiver τ) (frame : Frame) (transaction : ReceiveTransaction τ)
    (ordered : List (String × Option Bytes)) (replica : CommittedReplica) (record : Bytes) : Prop where
  active : r.active.get? frame.key = some transaction
  /-- The frame commits as many chunks, under this manifest. -/
  body : frame.body = .commit replica.manifestDigest ordered.length record
  key : replica.key = transaction.key
  contextDigest : replica.contextDigest = transaction.contextDigest
  identityDigest : replica.identityDigest = transaction.identityDigest
  /-- The transaction holds exactly these chunks. -/
  chunks : ∀ i, transaction.chunks.get? i = ordered[i]?
  /-- Their digests are those of the replica. -/
  digests : replica.chunkDigests = ordered.map Prod.fst
  canonical : CommitRecord.bytes ⟨transaction.key.transactionId, transaction.key.generation, transaction.contextDigest,
    replica.chunkDigests⟩ = record
  manifest : host.sha256 record = replica.manifestDigest

/-- What was checked before a callback is entered. -/
def Enters (host : Host τ) (config : ReceiverConfig) (r : Receiver τ) (frame : Frame) : Callback → Prop
  | .chunk chunk =>
    chunk.key = frame.key ∧ frame.body = .putChunk chunk.chunkIndex chunk.chunkDigest chunk.payload ∧
      host.sha256 chunk.payload = chunk.chunkDigest
  | .commit replica payloads record =>
    config.onChunk = false ∧
      ∃ transaction ordered, Verified host r frame transaction ordered replica record ∧ payloads = ordered.filterMap Prod.snd
  | .streamCommit replica record =>
    config.onChunk = true ∧ ∃ transaction ordered, Verified host r frame transaction ordered replica record

/-- What was checked before a chunk is staged. -/
structure Stages (host : Host τ) (config : ReceiverConfig) (r : Receiver τ) (frame : Frame) (transaction : ReceiveTransaction τ)
    (index : ℕ) (digest : String) (payload : Bytes) (fingerprint : String) (entered : Option Callback) : Prop where
  active : r.active.get? frame.key = some transaction
  body : frame.body = .putChunk index digest payload
  fingerprint : ∃ encoded, frame.encode = .ok encoded ∧ fingerprint = host.sha256 encoded
  /-- The number of the frame is new. -/
  sequence : transaction.sequences.get? frame.sequence = none
  hashed : host.sha256 payload = digest
  free : transaction.chunks.get? index = none
  /-- A callback took the payload, or there is none. -/
  entered : entered =
    if config.onChunk then
      some (.chunk ⟨transaction.key, transaction.contextDigest, transaction.identityDigest, index, digest, payload⟩)
    else none

def stagedPayload (config : ReceiverConfig) (payload : Bytes) : Option Bytes := if config.onChunk then none else some payload

/-- A transaction with one more chunk. -/
def ReceiveTransaction.put (transaction : ReceiveTransaction τ) (config : ReceiverConfig) (index : ℕ) (digest : String)
    (payload : Bytes) (sequence : ℕ) (fingerprint : String) : ReceiveTransaction τ :=
  { transaction with
    chunks := transaction.chunks.set index (digest, stagedPayload config payload)
    sequences := transaction.sequences.set sequence fingerprint }

/-- A new transaction. -/
def openTransaction (key : Key) (contextDigest identityDigest : String) (sequence : ℕ) (fingerprint : String) (now : τ) :
    ReceiveTransaction τ :=
  { key := key, contextDigest := contextDigest, identityDigest := identityDigest, lastActivity := now
    sequences := Dict.empty.set sequence fingerprint }

/-- What handling a frame of a current generation can do. -/
inductive Effect (host : Host τ) (config : ReceiverConfig) (r : Receiver τ) (frame : Frame) (now : τ) (outcome : CallbackOutcome) :
    Handled τ → Prop
  /-- Nothing changes. -/
  | still (status : Option Status) : Effect host config r frame now outcome { receiver := r, status := status }
  /-- A callback is interrupted before anything changes. -/
  | interrupted {callback : Callback} : Enters host config r frame callback → outcome = .interrupts →
      Effect host config r frame now outcome { receiver := r, status := none, entered := some callback }
  | dropped {key : Key} {status : Option Status} {entered : Option Callback} : key.transactionId = frame.key.transactionId →
      status ≠ some .ok →
      (∀ callback, entered = some callback → Enters host config r frame callback ∧ outcome = .raises ∧ key = frame.key ∧ status = some .aborted) →
      Effect host config r frame now outcome { receiver := r.discard key, status := status, entered := entered }
  /-- The transaction is dropped because a chunk exceeds a bound. -/
  | overrun {transaction : ReceiveTransaction τ} {index : ℕ} {digest : String} {payload : Bytes} {fingerprint : String}
      {entered : Option Callback} : Stages host config r frame transaction index digest payload fingerprint entered →
      r.exceeds config (stagedPayload config payload) = true → (entered.isSome → outcome = .returns) →
      Effect host config r frame now outcome { r.abandon frame.key with entered := entered, overrun := true }
  | touched {transaction : ReceiveTransaction τ} : r.active.get? frame.key = some transaction →
      Effect host config r frame now outcome ((r.touch transaction now).answer .duplicate)
  /-- A transaction is opened. -/
  | opened {contextDigest identityDigest fingerprint : String} : frame.body = .begin contextDigest identityDigest →
      r.checkGeneration frame.key = true → r.committed.get? frame.key = none → r.active.get? frame.key = none →
      (r.supersede frame.key).active.size < config.maxActiveTransactions →
      Effect host config r frame now outcome
        ((Receiver.rememberGeneration config
          { r.supersede frame.key with
            active := (r.supersede frame.key).active.set frame.key
              (openTransaction frame.key contextDigest identityDigest frame.sequence fingerprint now) } frame.key).answer .ok)
  /-- A chunk is staged. -/
  | staged {transaction : ReceiveTransaction τ} {index : ℕ} {digest : String} {payload : Bytes} {fingerprint : String}
      {entered : Option Callback} : Stages host config r frame transaction index digest payload fingerprint entered →
      r.exceeds config (stagedPayload config payload) = false → (entered.isSome → outcome = .returns) →
      Effect host config r frame now outcome
        { receiver := r.touch (transaction.put config index digest payload frame.sequence fingerprint) now
          status := some .ok
          entered := entered }
  | published {transaction : ReceiveTransaction τ} {ordered : List (String × Option Bytes)} {replica : CommittedReplica}
      {record : Bytes} {entered : Option Callback} : Verified host r frame transaction ordered replica record →
      r.committed.get? frame.key = none →
      (∀ callback, entered = some callback → Enters host config r frame callback ∧ outcome = .returns) →
      Effect host config r frame now outcome
        { receiver := (r.discard frame.key).rememberCommit config replica, status := some .committed, entered := entered }

/-- Transactions are listed under their own keys. -/
def Keyed (r : Receiver τ) : Prop := ∀ key transaction, r.active.get? key = some transaction → transaction.key = key

theorem effect_begin {contextDigest identityDigest : String} (hbody : frame.body = .begin contextDigest identityDigest)
    (hcurrent : r.checkGeneration frame.key = true) :
    Effect host config r frame now outcome (r.begin host config frame contextDigest identityDigest now) := by
  unfold Receiver.begin
  dsimp only
  split
  · split
    · exact .still _
    · exact .still _
  next hcommitted =>
    split
    next existing hactive =>
      split
      · exact .touched hactive
      · exact .dropped rfl nofun fun _ h => nomatch h
    next hactive =>
      -- a superseded generation stays dropped where the new one is refused
      have hdropped : ∀ status, status ≠ some .ok →
          Effect host config r frame now outcome { receiver := r.supersede frame.key, status := status } := by
        intro status hstatus
        unfold Receiver.supersede
        split
        · exact .still _
        split
        · exact .dropped rfl hstatus fun _ h => nomatch h
        · exact .still _
      split
      · exact hdropped _ nofun
      split
      · exact hdropped _ nofun
      · exact .opened hbody hcurrent hcommitted hactive (by omega)

theorem effect_stage {fingerprint : String} (hkeyed : Keyed r)
    (h : Stages host config r frame transaction index digest payload fingerprint entered)
    (houtcome : entered.isSome → outcome = .returns) (now : τ) : Effect host config r frame now outcome
      (r.stage config transaction frame.sequence fingerprint index digest (stagedPayload config payload) now entered) := by
  unfold Receiver.stage
  split
  case isTrue hexceeds =>
    rw [hkeyed _ _ h.active]
    exact .overrun h hexceeds houtcome
  case isFalse hexceeds => exact .staged h (Bool.not_eq_true _ ▸ hexceeds) houtcome

theorem effect_putChunk (hkeyed : Keyed r) (hbody : frame.body = .putChunk index digest payload) :
    Effect host config r frame now outcome (r.putChunk host config frame index digest payload now outcome) := by
  unfold Receiver.putChunk
  split
  · exact .still _
  next transaction hactive =>
    have habandon : Effect host config r frame now outcome (r.abandon frame.key) := .dropped rfl nofun fun _ h => nomatch h
    split
    · exact .still _
    next encoded hencoded =>
      dsimp only
      split
      next seen hseen =>
        split
        · exact .touched hactive
        · exact habandon
      next hsequence =>
        split
        · exact habandon
        next hdigest =>
          rw [not_not] at hdigest
          split
          next existing hexisting =>
            split
            · exact .touched hactive
            · exact habandon
          next hindex =>
            split
            · exact habandon
            have hstages : Stages host config r frame transaction index digest payload (host.sha256 encoded)
                (if config.onChunk then
                  some (.chunk ⟨transaction.key, transaction.contextDigest, transaction.identityDigest, index, digest, payload⟩)
                else none) := ⟨hactive, hbody, ⟨encoded, hencoded, rfl⟩, hsequence, hdigest, hindex, rfl⟩
            split
            next hmode =>
              rw [if_pos hmode] at hstages
              have henters : Enters host config r frame
                  (.chunk ⟨transaction.key, transaction.contextDigest, transaction.identityDigest, index, digest, payload⟩) :=
                ⟨hkeyed _ _ hactive, hbody, hdigest⟩
              split
              · exact .dropped rfl nofun fun _ h => by
                  cases h
                  exact ⟨henters, rfl, rfl, rfl⟩
              · exact .interrupted henters rfl
              have heffect := effect_stage hkeyed hstages (fun _ => rfl) now
              rw [stagedPayload, if_pos hmode] at heffect
              exact heffect
            next hmode =>
              rw [if_neg hmode] at hstages
              have heffect : Effect host config r frame now outcome _ := effect_stage hkeyed hstages nofun now
              rw [stagedPayload, if_neg hmode] at heffect
              exact heffect

theorem map_get?_of_ordered {indices : List ℕ}
    (h : transaction.ordered indices = some ordered) : indices.map transaction.chunks.get? = ordered.map some := by
  induction indices generalizing ordered with
  | nil =>
    cases h
    rfl
  | cons index indices ih =>
    rw [ReceiveTransaction.ordered] at h
    split at h
    · cases h
    next chunk hchunk =>
      obtain ⟨rest, hrest, rfl⟩ := Option.map_eq_some_iff.mp h
      rw [List.map_cons, List.map_cons, hchunk, ih hrest]

theorem ordered_chunks {count : ℕ}
    (hkeys : transaction.chunks.keys.toFinset = Finset.range count) (h : transaction.ordered (List.range count) = some ordered) :
    ordered.length = count ∧ ∀ i, transaction.chunks.get? i = ordered[i]? := by
  have hmap := map_get?_of_ordered h
  have hlength : ordered.length = count := by
    have := congrArg List.length hmap
    rw [List.length_map, List.length_map, List.length_range] at this
    exact this.symm
  refine ⟨hlength, fun i => ?_⟩
  by_cases hi : i < count
  · have hat := congrArg (fun l => l[i]?) hmap
    simp only [List.getElem?_map, List.getElem?_range hi, Option.map_some] at hat
    rw [List.getElem?_eq_getElem (hlength ▸ hi)] at hat ⊢
    exact Option.some.inj hat
  rw [List.getElem?_eq_none (by omega), Dict.get?_eq_none_iff]
  intro hmem
  rw [← List.mem_toFinset, hkeys, Finset.mem_range] at hmem
  exact hi hmem

theorem effect_publish {replica : CommittedReplica} {record : Bytes} (hverified : Verified host r frame transaction ordered replica record)
    (hcommitted : r.committed.get? frame.key = none)
    (henters : ∀ callback, entered = some callback → Enters host config r frame callback) (hkey : replica.key = frame.key) :
    Effect host config r frame now outcome (r.publish config replica entered outcome) := by
  unfold Receiver.publish
  rw [hkey]
  cases entered with
  | none => exact .published hverified hcommitted nofun
  | some callback =>
    have hcallback := henters callback rfl
    cases outcome with
    | returns => exact .published hverified hcommitted fun other hother => ⟨henters other hother, rfl⟩
    | raises => exact .dropped rfl nofun fun other hother => ⟨henters other hother, rfl, rfl, rfl⟩
    | interrupts => exact .interrupted hcallback rfl

theorem effect_commit {manifestDigest : String} {chunkCount : ℕ} (hkeyed : Keyed r)
    (hbody : frame.body = .commit manifestDigest chunkCount payload) :
    Effect host config r frame now outcome (r.commit host config frame.key manifestDigest chunkCount payload outcome) := by
  unfold Receiver.commit
  have habandon : Effect host config r frame now outcome (r.abandon frame.key) := .dropped rfl nofun fun _ h => nomatch h
  split
  · split
    · exact .still _
    · exact .still _
  next hcommitted =>
    split
    · exact .still _
    next transaction hactive =>
      split
      · exact habandon
      next hmanifest =>
        rw [not_not] at hmanifest
        split
        · exact .still _
        · exact habandon
        next record hdecoded =>
          split
          · exact habandon
          next hchecks =>
            simp only [not_or, not_not] at hchecks
            obtain ⟨hid, hgeneration, hcontext, hcount, hkeys⟩ := hchecks
            split
            · exact .still _
            next ordered hordered =>
              obtain ⟨hlength, hchunks⟩ := ordered_chunks hkeys hordered
              split
              · exact habandon
              next hdigests =>
                rw [not_not] at hdigests
                generalize hreplica : (⟨transaction.key, transaction.contextDigest, transaction.identityDigest, manifestDigest,
                  ordered.map Prod.fst⟩ : CommittedReplica) = replica
                have hrecord : record = ⟨transaction.key.transactionId, transaction.key.generation, transaction.contextDigest,
                    replica.chunkDigests⟩ := by
                  rw [← hreplica, ← hid, ← hgeneration, ← hcontext, hdigests]
                have hverified : Verified host r frame transaction ordered replica payload := by
                  refine ⟨hactive, ?_, hreplica ▸ rfl, hreplica ▸ rfl, hreplica ▸ rfl, hchunks, hreplica ▸ rfl, ?_, hreplica ▸ hmanifest⟩
                  · rw [hbody, ← hreplica, hlength]
                  · rw [← hrecord]
                    exact bytes_of_decodeCommitRecord hdecoded
                have henters : ∀ callback, commitCallback config replica ordered payload = some callback →
                    Enters host config r frame callback := by
                  intro callback hcallback
                  unfold commitCallback at hcallback
                  split at hcallback
                  next hmode =>
                    split at hcallback
                    · cases hcallback
                      exact ⟨hmode, transaction, ordered, hverified⟩
                    · cases hcallback
                  next hmode =>
                    split at hcallback
                    · cases hcallback
                      exact ⟨Bool.not_eq_true _ ▸ hmode, transaction, ordered, hverified, rfl⟩
                    · cases hcallback
                exact effect_publish hverified hcommitted henters (hverified.key.trans (hkeyed _ _ hactive))

/-- Handling a frame of a current generation has one of the effects; an older one changes
nothing. -/
theorem effect_handle (host : Host τ) (config : ReceiverConfig) (hkeyed : Keyed r) (frame : Frame) (now : τ) (outcome : CallbackOutcome) :
    Effect host config r frame now outcome (r.handle host config frame now outcome) := by
  have hguarded : ∀ handled, (r.checkGeneration frame.key = true → Effect host config r frame now outcome handled) →
      Effect host config r frame now outcome (if r.checkGeneration frame.key then handled else r.answer .rejected) := by
    intro handled h
    split
    case isTrue hcurrent => exact h hcurrent
    case isFalse => exact .still _
  unfold Receiver.handle
  dsimp only
  split
  next hbody => exact hguarded _ (effect_begin hbody)
  next hbody => exact hguarded _ fun _ => effect_putChunk hkeyed hbody
  next hbody => exact hguarded _ fun _ => effect_commit hkeyed hbody
  next hbody =>
    refine hguarded _ fun _ => ?_
    unfold Receiver.abort
    split
    · exact .dropped rfl nofun fun _ h => nomatch h
    · exact .still _
  · exact .still _
  · exact .still _

end SparkRing.Replication
