import SparkRing.ReceiverInvariant
import SparkRing.TransitionSystem

/-!
# A receiver publishes only verified replicas

A run of a receiver is any sequence of frames and expiries, with any clock readings
and any behaviour of the callbacks. In every state of every run the bounds hold, and
whatever frame comes next, it reaches no other transaction's chunks, changes nothing
where its generation is old, and publishes only what was staged and verified.
-/

namespace SparkRing.Replication

open OrderedDict TransitionSystem

variable {τ : Type} {host : Host τ} {config : ReceiverConfig} {r : Receiver τ} {frame : Frame} {expireAt now : τ}
  {outcome : CallbackOutcome} {handled : Handled τ} {transaction : ReceiveTransaction τ} {ordered : List (String × Option Bytes)}
  {other key : Key}

/-- A receiver and the callbacks it entered. -/
structure Replicating (τ : Type) where
  receiver : Receiver τ := {}
  /-- The callbacks entered, the latest first. -/
  log : List Callback := []

/-- What is done to a receiver. -/
inductive ReceiverAct (τ : Type)
  /-- A frame is received, with two readings of the clock. -/
  | receive (frame : Frame) (expireAt now : τ) (outcome : CallbackOutcome)
  /-- Abandoned transactions are discarded. -/
  | expireInactive (now : τ)

/-- One call of a receiver. -/
def receiverStep (host : Host τ) (config : ReceiverConfig) (s : Replicating τ) : ReceiverAct τ → Option (Replicating τ)
  | .receive frame expireAt now outcome =>
    let handled := (s.receiver.receive host config frame expireAt now outcome).1
    some ⟨handled.receiver, handled.entered.toList ++ s.log⟩
  | .expireInactive now => some { s with receiver := s.receiver.expireInactive host now }

/-- A receiver whose responses are numbered on. -/
theorem Inv.responses (h : Inv host config r) (n : ℕ) : Inv host config { r with responseSequence := n } :=
  { h with }

/-- Handling a frame keeps the invariant. -/
theorem Inv.effect (h : Inv host config r) (he : Effect host config r frame now outcome handled) : Inv host config handled.receiver := by
  cases he with
  | still | interrupted => exact h
  | dropped | overrun => exact h.discard _
  | touched hactive => exact h.touch hactive
  | opened hbody hcurrent hcommitted hnone hroom => exact h.open hcurrent hcommitted hnone hroom
  | staged hstages hbounds houtcome => exact h.put hstages hbounds
  | published hverified hcommitted hentered =>
    refine (h.discard _).rememberCommit ?_
    rw [hverified.key, h.keyed _ _ hverified.active]
    exact Dict.get?_erase_self

section Receive

variable (host config r frame expireAt now outcome)

/-- A frame that is received is handled after the expiry, and its responses are numbered. -/
theorem receive_receiver : ∃ n, (r.receive host config frame expireAt now outcome).1.receiver =
    { ((r.expireInactive host expireAt).handle host config frame now outcome).receiver with responseSequence := n } := by
  unfold Receiver.receive
  dsimp only
  split
  · exact ⟨_, rfl⟩
  · exact ⟨_, rfl⟩

theorem receive_entered : (r.receive host config frame expireAt now outcome).1.entered =
    ((r.expireInactive host expireAt).handle host config frame now outcome).entered := by
  unfold Receiver.receive
  dsimp only
  split
  · rfl
  · rfl

theorem receive_status : (r.receive host config frame expireAt now outcome).1.status =
    ((r.expireInactive host expireAt).handle host config frame now outcome).status := by
  unfold Receiver.receive
  dsimp only
  split
  · rfl
  · rfl

theorem receive_overrun : (r.receive host config frame expireAt now outcome).1.overrun =
    ((r.expireInactive host expireAt).handle host config frame now outcome).overrun := by
  unfold Receiver.receive
  dsimp only
  split
  · rfl
  · rfl

theorem receive_active : (r.receive host config frame expireAt now outcome).1.receiver.active =
    ((r.expireInactive host expireAt).handle host config frame now outcome).receiver.active := by
  obtain ⟨n, hreceiver⟩ := receive_receiver host config r frame expireAt now outcome
  rw [hreceiver]

theorem receive_committed : (r.receive host config frame expireAt now outcome).1.receiver.committed =
    ((r.expireInactive host expireAt).handle host config frame now outcome).receiver.committed := by
  obtain ⟨n, hreceiver⟩ := receive_receiver host config r frame expireAt now outcome
  rw [hreceiver]

theorem receive_latestGeneration : (r.receive host config frame expireAt now outcome).1.receiver.latestGeneration =
    ((r.expireInactive host expireAt).handle host config frame now outcome).receiver.latestGeneration := by
  obtain ⟨n, hreceiver⟩ := receive_receiver host config r frame expireAt now outcome
  rw [hreceiver]

end Receive

theorem Inv.handle_effect (h : Inv host config r) (frame : Frame) (expireAt now : τ) (outcome : CallbackOutcome) :
    Effect host config (r.expireInactive host expireAt) frame now outcome
      ((r.expireInactive host expireAt).handle host config frame now outcome) :=
  effect_handle host config (h.expireInactive expireAt).keyed frame now outcome

/-- Receiving a frame keeps the invariant. -/
theorem Inv.receive (h : Inv host config r) (frame : Frame) (expireAt now : τ) (outcome : CallbackOutcome) :
    Inv host config (r.receive host config frame expireAt now outcome).1.receiver := by
  obtain ⟨n, hreceiver⟩ := receive_receiver host config r frame expireAt now outcome
  rw [hreceiver]
  exact ((h.expireInactive expireAt).effect (h.handle_effect frame expireAt now outcome)).responses n

/-- A frame leaves the transactions of other identifiers alone. -/
theorem Effect.others (hkeyed : Keyed r) (he : Effect host config r frame now outcome handled)
    (hother : other.transactionId ≠ frame.key.transactionId) : handled.receiver.active.get? other = r.active.get? other := by
  have hne : ∀ key : Key, key.transactionId = frame.key.transactionId → other ≠ key := by
    rintro key hkey rfl
    exact hother hkey
  have htouch : ∀ found changed : ReceiveTransaction τ, r.active.get? frame.key = some found → changed.key = found.key →
      (r.touch changed now).active.get? other = r.active.get? other := by
    intro found changed hactive hkey
    refine Dict.get?_set_of_ne (hne _ ?_)
    rw [hkey, hkeyed _ _ hactive]
  cases he with
  | still | interrupted => rfl
  | dropped hkey hstatus hentered => exact Dict.get?_erase_of_ne (hne _ hkey)
  | overrun => exact Dict.get?_erase_of_ne (hne _ rfl)
  | touched hactive => exact htouch _ _ hactive rfl
  | opened =>
    refine (Dict.get?_set_of_ne (hne _ rfl)).trans ?_
    unfold Receiver.supersede
    split
    · rfl
    split
    · exact Dict.get?_erase_of_ne (hne _ rfl)
    · rfl
  | staged hstages hbounds houtcome => exact htouch _ _ hstages.active rfl
  | published => exact Dict.get?_erase_of_ne (hne _ rfl)

/-- A frame of an old generation is refused without a change. -/
theorem handle_older {latest : ℕ} (hlatest : r.latestGeneration.get? frame.key.transactionId = some latest)
    (hold : frame.key.generation < latest) :
    (r.handle host config frame now outcome).receiver = r ∧ (r.handle host config frame now outcome).entered = none := by
  have hcheck : r.checkGeneration frame.key = false := by
    simp only [Receiver.checkGeneration, hlatest, decide_eq_false_iff_not]
    omega
  unfold Receiver.handle
  simp only [hcheck, Bool.false_eq_true, if_false]
  split <;> exact ⟨rfl, rfl⟩

/-- Every chunk that a callback took went through it. -/
def Delivered (host : Host τ) (s : Replicating τ) : Prop :=
  ∀ key transaction index digest, s.receiver.active.get? key = some transaction →
    transaction.chunks.get? index = some (digest, none) →
    ∃ chunk, .chunk chunk ∈ s.log ∧ chunk.key = key ∧ chunk.chunkIndex = index ∧ chunk.chunkDigest = digest ∧
      host.sha256 chunk.payload = digest

/-- A callback that took a chunk is logged before the chunk is. -/
theorem Delivered.step {s s' : Replicating τ} {act : ReceiverAct τ} (hinv : Inv host config s.receiver) (h : Delivered host s)
    (hstep : receiverStep host config s act = some s') : Delivered host s' := by
  cases act with
  | expireInactive =>
    cases hstep
    intro key transaction index digest hactive hchunk
    exact h key transaction index digest (Dict.get?_filter_eq_some.mp hactive).1 hchunk
  | receive frame expireAt now outcome =>
    cases hstep
    intro key transaction index digest hactive hchunk
    rw [receive_active] at hactive
    rw [receive_entered]
    have hexpired := hinv.expireInactive expireAt
    have he := hinv.handle_effect frame expireAt now outcome
    generalize (s.receiver.expireInactive host expireAt).handle host config frame now outcome = handled at he hactive ⊢
    -- a chunk that was there is in the log already
    have hold : ∀ found, (s.receiver.expireInactive host expireAt).active.get? key = some found →
        found.chunks.get? index = some (digest, none) →
        ∃ chunk, .chunk chunk ∈ handled.entered.toList ++ s.log ∧ chunk.key = key ∧ chunk.chunkIndex = index ∧
          chunk.chunkDigest = digest ∧ host.sha256 chunk.payload = digest := by
      intro found hfound hthere
      obtain ⟨chunk, hmem, hrest⟩ := h key found index digest (Dict.get?_filter_eq_some.mp hfound).1 hthere
      exact ⟨chunk, List.mem_append_right _ hmem, hrest⟩
    have hset : ∀ {active : Dict Key (ReceiveTransaction τ)} {place : Key} {changed : ReceiveTransaction τ},
        (active.set place changed).get? key = some transaction →
        key = place ∧ transaction = changed ∨ active.get? key = some transaction := by
      intro active place changed hfound
      rw [Dict.get?_set] at hfound
      split_ifs at hfound with hkey
      · rw [Option.some.injEq] at hfound
        exact .inl ⟨hkey, hfound.symm⟩
      · exact .inr hfound
    cases he with
    | still | interrupted => exact hold _ hactive hchunk
    | dropped | overrun | published =>
      exact hold _ (Dict.get?_filter_eq_some.mp hactive).1 hchunk
    | @touched found hfound =>
      rcases hset hactive with ⟨hkey, rfl⟩ | hother
      · rw [hexpired.keyed _ _ hfound] at hkey
        exact hold found (hkey ▸ hfound) hchunk
      · exact hold _ hother hchunk
    | opened =>
      rcases hset hactive with ⟨-, rfl⟩ | hother
      · cases hchunk
      refine hold transaction ?_ hchunk
      unfold Receiver.supersede at hother
      split at hother
      · exact hother
      split at hother
      · exact (Dict.get?_filter_eq_some.mp hother).1
      · exact hother
    | staged hstages hbounds houtcome =>
      rcases hset hactive with ⟨hkey, rfl⟩ | hother
      · have hlisted := hexpired.keyed _ _ hstages.active
        replace hkey : key = frame.key := hkey.trans hlisted
        subst hkey
        dsimp only [ReceiveTransaction.put] at hchunk
        rw [Dict.get?_set] at hchunk
        split at hchunk
        next hindex =>
          rw [Option.some.injEq, Prod.mk.injEq] at hchunk
          obtain ⟨hdigest, htaken⟩ := hchunk
          have hmode : config.onChunk = true := by
            by_contra hmode
            rw [stagedPayload, if_neg hmode] at htaken
            cases htaken
          refine ⟨_, List.mem_append_left _ (Option.mem_toList.mpr (hstages.entered.trans (if_pos hmode))), hlisted, hindex.symm,
            hdigest, hstages.hashed.trans hdigest⟩
        next hindex => exact hold _ hstages.active hchunk
      · exact hold _ hother hchunk

/-- Every run keeps the invariant and the log. -/
theorem inv_reachable {s : Replicating τ} (h : Reachable (receiverStep host config) Unrestricted {} s) :
    Inv host config s.receiver ∧ Delivered host s := by
  refine h.invariant (fun s => Inv host config s.receiver ∧ Delivered host s) ⟨inv_init, nofun⟩ ?_
  intro s act s' _ hs _ hstep
  refine ⟨?_, hs.2.step hs.1 hstep⟩
  cases act with
  | expireInactive now =>
    cases hstep
    exact hs.1.expireInactive now
  | receive frame expireAt now outcome =>
    cases hstep
    exact hs.1.receive frame expireAt now outcome

/-- What a callback may rely on, where the log and the active transactions are as given. -/
def Approved (host : Host τ) (log : List Callback) (r : Receiver τ) (frame : Frame) : Callback → Prop
  | .chunk chunk => chunk.key = frame.key ∧ host.sha256 chunk.payload = chunk.chunkDigest
  | .commit replica payloads record =>
    ∃ transaction, r.active.get? frame.key = some transaction ∧ replica.key = frame.key ∧
      frame.body = .commit replica.manifestDigest payloads.length record ∧
      (∀ i, transaction.chunks.get? i = payloads[i]?.map fun payload => (host.sha256 payload, some payload)) ∧
      payloads.map host.sha256 = replica.chunkDigests ∧
      CommitRecord.bytes ⟨frame.key.transactionId, frame.key.generation, transaction.contextDigest, replica.chunkDigests⟩ = record ∧
      host.sha256 record = replica.manifestDigest
  | .streamCommit replica record =>
    ∃ transaction, r.active.get? frame.key = some transaction ∧ replica.key = frame.key ∧
      frame.body = .commit replica.manifestDigest replica.chunkDigests.length record ∧
      (∀ i, transaction.chunks.get? i = replica.chunkDigests[i]?.map fun digest => (digest, none)) ∧
      (∀ (i : ℕ) (digest : String), replica.chunkDigests[i]? = some digest → ∃ chunk, .chunk chunk ∈ log ∧ chunk.key = frame.key ∧
        chunk.chunkIndex = i ∧ host.sha256 chunk.payload = digest) ∧
      CommitRecord.bytes ⟨frame.key.transactionId, frame.key.generation, transaction.contextDigest, replica.chunkDigests⟩ = record ∧
      host.sha256 record = replica.manifestDigest

/-- Where payloads are staged, the chunks in order are the payloads with their digests. -/
theorem ordered_payloads
    (h : ∀ chunk ∈ ordered, ∃ payload, chunk.2 = some payload ∧ host.sha256 payload = chunk.1) :
    ordered = (ordered.filterMap Prod.snd).map fun payload => (host.sha256 payload, some payload) := by
  induction ordered with
  | nil => rfl
  | cons chunk ordered ih =>
    obtain ⟨digest, staged⟩ := chunk
    obtain ⟨payload, hstaged, hdigest⟩ := h _ (List.mem_cons_self ..)
    subst hstaged hdigest
    simp only [List.filterMap_cons, List.map_cons]
    rw [← ih fun chunk hmem => h chunk (List.mem_cons_of_mem _ hmem)]

/-- Where a callback takes payloads, the chunks in order are the digests. -/
theorem ordered_digests (h : ∀ chunk ∈ ordered, chunk.2 = none) :
    ordered = (ordered.map Prod.fst).map fun digest => (digest, none) := by
  induction ordered with
  | nil => rfl
  | cons chunk ordered ih =>
    obtain ⟨digest, staged⟩ := chunk
    have hstaged := h _ (List.mem_cons_self ..)
    subst hstaged
    rw [List.map_cons, List.map_cons, ← ih fun chunk hmem => h chunk (List.mem_cons_of_mem _ hmem)]

/-- What was checked before a callback is what the callback may rely on. -/
theorem Enters.approved {log : List Callback} {callback : Callback} (hinv : Inv host config r)
    (hlog : Delivered host ⟨r, log⟩) (h : Enters host config r frame callback) : Approved host log r frame callback := by
  have hkept : ∀ transaction ordered replica record, Verified host r frame transaction ordered replica record →
      ∀ chunk ∈ ordered, Kept host config chunk := by
    intro transaction ordered replica record hverified chunk hmem
    obtain ⟨i, hi, rfl⟩ := List.getElem_of_mem hmem
    exact hinv.chunks _ _ i _ hverified.active ((hverified.chunks i).trans (List.getElem?_eq_getElem hi))
  cases callback with
  | chunk => exact ⟨h.1, h.2.2⟩
  | commit replica payloads record =>
    obtain ⟨hmode, transaction, ordered, hverified, hpayloads⟩ := h
    have hkey := hinv.keyed _ _ hverified.active
    have hordered : ordered = payloads.map fun payload => (host.sha256 payload, some payload) := by
      rw [hpayloads]
      refine ordered_payloads fun chunk hmem => ?_
      have := hkept _ _ _ _ hverified chunk hmem
      rwa [Kept, hmode, if_neg Bool.false_ne_true] at this
    refine ⟨transaction, hverified.active, hverified.key.trans hkey, ?_, fun i => ?_, ?_, hkey ▸ hverified.canonical, hverified.manifest⟩
    · rw [hverified.body, hordered, List.length_map]
    · rw [hverified.chunks, hordered, List.getElem?_map]
    · rw [hverified.digests, hordered, List.map_map]
      rfl
  | streamCommit replica record =>
    obtain ⟨hmode, transaction, ordered, hverified⟩ := h
    have hkey := hinv.keyed _ _ hverified.active
    have hordered : ordered = replica.chunkDigests.map fun digest => (digest, none) := by
      rw [hverified.digests]
      refine ordered_digests fun chunk hmem => ?_
      have := hkept _ _ _ _ hverified chunk hmem
      rwa [Kept, if_pos hmode] at this
    have hchunks : ∀ i, transaction.chunks.get? i = replica.chunkDigests[i]?.map fun digest => (digest, none) := by
      intro i
      rw [hverified.chunks, hordered, List.getElem?_map]
    refine ⟨transaction, hverified.active, hverified.key.trans hkey, ?_, hchunks, fun i digest hdigest => ?_, hkey ▸ hverified.canonical,
      hverified.manifest⟩
    · rw [hverified.body, hverified.digests, List.length_map]
    have hchunk := hchunks i
    rw [hdigest] at hchunk
    obtain ⟨chunk, hmem, hfound, hindex, -, hhashed⟩ := hlog _ _ _ _ hverified.active hchunk
    exact ⟨chunk, hmem, hfound, hindex, hhashed⟩

/-- The transactions left after the expiry. -/
abbrev Replicating.expired (s : Replicating τ) (host : Host τ) (expireAt : τ) : Receiver τ := s.receiver.expireInactive host expireAt

/-- What holds of a receiver, and of whatever frame it receives next. -/
structure Safe (host : Host τ) (config : ReceiverConfig) (s : Replicating τ) : Prop where
  activeTransactions : s.receiver.active.size ≤ config.maxActiveTransactions
  stagedBytes : s.receiver.stagedBytes ≤ config.maxStagedBytes
  stagedChunks : s.receiver.stagedChunks ≤ config.maxStagedChunks
  generation : ∀ key other, key ∈ s.receiver.active.keys → other ∈ s.receiver.active.keys →
    key.transactionId = other.transactionId → key = other
  /-- A frame of an old generation changes nothing but the expiry. -/
  older : ∀ frame expireAt now outcome latest, s.receiver.latestGeneration.get? frame.key.transactionId = some latest →
    frame.key.generation < latest →
    let after := (s.receiver.receive host config frame expireAt now outcome).1
    after.receiver.active = (s.expired host expireAt).active ∧ after.receiver.committed = s.receiver.committed ∧
      after.receiver.latestGeneration = s.receiver.latestGeneration ∧ after.entered = none
  /-- A frame leaves the transactions of other identifiers alone. -/
  others : ∀ frame expireAt now outcome other, other.transactionId ≠ frame.key.transactionId →
    (s.receiver.receive host config frame expireAt now outcome).1.receiver.active.get? other =
      (s.expired host expireAt).active.get? other
  /-- A callback is entered only for what was verified. -/
  entered : ∀ frame expireAt now outcome callback,
    (s.receiver.receive host config frame expireAt now outcome).1.entered = some callback →
    Approved host s.log (s.expired host expireAt) frame callback
  /-- A commit is remembered only for what was verified, with a callback or without. -/
  published : ∀ frame expireAt now outcome key replica,
    (s.receiver.receive host config frame expireAt now outcome).1.receiver.committed.get? key = some replica →
    s.receiver.committed.get? key = some replica ∨
      key = frame.key ∧ ∃ transaction ordered record, Verified host (s.expired host expireAt) frame transaction ordered replica record
  /-- A callback that raises drops its transaction, and nothing is committed. -/
  raised : ∀ frame expireAt now callback,
    let after := (s.receiver.receive host config frame expireAt now .raises).1
    after.entered = some callback → after.status = some .aborted ∧ after.receiver.active.get? frame.key = none ∧
      after.receiver.committed = s.receiver.committed
  /-- A callback that is interrupted changes nothing but the expiry. -/
  interrupted : ∀ frame expireAt now callback,
    let after := (s.receiver.receive host config frame expireAt now .interrupts).1
    after.entered = some callback → after.status = none ∧ after.receiver.active = (s.expired host expireAt).active ∧
      after.receiver.committed = s.receiver.committed

theorem Inv.generation (h : Inv host config r) (hkey : key ∈ r.active.keys) (hother : other ∈ r.active.keys)
    (hid : key.transactionId = other.transactionId) : key = other := by
  obtain ⟨x, hx⟩ := Dict.mem_keys_iff.mp hkey
  obtain ⟨y, hy⟩ := Dict.mem_keys_iff.mp hother
  have hlatest := h.latest key x hx
  rw [hid, h.latest other y hy, Option.some.injEq] at hlatest
  cases key
  cases other
  simp_all

/-- A commit that is remembered after a frame was remembered before, or the frame published it. -/
theorem Effect.published_or (hkeyed : Keyed r) (he : Effect host config r frame now outcome handled)
    {replica : CommittedReplica} (h : handled.receiver.committed.get? key = some replica) : r.committed.get? key = some replica ∨
      key = frame.key ∧ ∃ transaction ordered record, Verified host r frame transaction ordered replica record := by
  cases he with
  | still status | interrupted henters houtcome | dropped hkey hstatus hentered | overrun hstages hexceeds houtcome
  | touched => exact .inl h
  | opened =>
    left
    have hsame : (r.supersede frame.key).committed = r.committed := by
      unfold Receiver.supersede
      split
      · rfl
      · split <;> rfl
    exact hsame ▸ h
  | staged => exact .inl h
  | published hverified hcommitted hentered =>
    rcases get?_rememberCommit h with ⟨hkey, rfl⟩ | hold
    · exact .inr ⟨hkey.trans (hverified.key.trans (hkeyed _ _ hverified.active)), _, _, _, hverified⟩
    · exact .inl hold

/-- The callback that took a chunk. -/
theorem Stages.callback {index : ℕ} {digest : String} {payload : Bytes} {fingerprint : String} {entered : Option Callback}
    {callback : Callback} (hkeyed : Keyed r) (h : Stages host config r frame transaction index digest payload fingerprint entered)
    (hcallback : entered = some callback) (houtcome : entered.isSome → outcome = .returns) :
    Enters host config r frame callback ∧ outcome = .returns := by
  have hreturns := houtcome (Option.isSome_iff_exists.mpr ⟨callback, hcallback⟩)
  rw [h.entered] at hcallback
  split at hcallback
  · cases hcallback
    exact ⟨⟨hkeyed _ _ h.active, h.body, h.hashed⟩, hreturns⟩
  · cases hcallback

/-- A callback that was entered was checked, and what it did decides what is left. -/
theorem Effect.callback (hkeyed : Keyed r) (he : Effect host config r frame now outcome handled) {callback : Callback}
    (h : handled.entered = some callback) : Enters host config r frame callback ∧
      (outcome = .raises → handled.status = some .aborted ∧ handled.receiver = r.discard frame.key) ∧
      (outcome = .interrupts → handled.status = none ∧ handled.receiver = r) := by
  cases he with
  | still => cases h
  | interrupted henters houtcome =>
    cases h
    subst houtcome
    exact ⟨henters, nofun, fun _ => ⟨rfl, rfl⟩⟩
  | dropped hkey hstatus hentered =>
    obtain ⟨henters, rfl, rfl, rfl⟩ := hentered callback h
    exact ⟨henters, fun _ => ⟨rfl, rfl⟩, nofun⟩
  | touched | opened => cases h
  | overrun hstages hexceeds houtcome | staged hstages hbounds houtcome =>
    obtain ⟨henters, rfl⟩ := hstages.callback hkeyed h houtcome
    exact ⟨henters, nofun, nofun⟩
  | published hverified hcommitted hentered =>
    obtain ⟨henters, rfl⟩ := hentered callback h
    exact ⟨henters, nofun, nofun⟩

/-- In every state of every run of a receiver it stays within its bounds, and publishes only
replicas that it verified. -/
theorem receiver_is_safe (host : Host τ) (config : ReceiverConfig) (s : Replicating τ)
    (h : Reachable (receiverStep host config) Unrestricted {} s) : Safe host config s := by
  obtain ⟨hinv, hlog⟩ := inv_reachable h
  have hkeyed : ∀ expireAt, Keyed (s.expired host expireAt) := fun expireAt => (hinv.expireInactive expireAt).keyed
  constructor
  case activeTransactions => exact hinv.activeTransactions
  case stagedBytes => exact hinv.stagedBytes
  case stagedChunks => exact hinv.stagedChunks
  case generation => exact fun key other hkey hother hid => hinv.generation hkey hother hid
  case older =>
    intro frame expireAt now outcome latest hlatest hold
    have hexpired : (s.expired host expireAt).latestGeneration.get? frame.key.transactionId = some latest := hlatest
    obtain ⟨hreceiver, hentered⟩ := handle_older hexpired hold
    dsimp only
    rw [receive_active, receive_committed, receive_latestGeneration, receive_entered, hreceiver]
    exact ⟨rfl, rfl, rfl, hentered⟩
  case others =>
    intro frame expireAt now outcome other hother
    rw [receive_active]
    exact (hinv.handle_effect frame expireAt now outcome).others (hkeyed expireAt) hother
  case entered =>
    intro frame expireAt now outcome callback hentered
    rw [receive_entered] at hentered
    have henters := ((hinv.handle_effect frame expireAt now outcome).callback (hkeyed expireAt) hentered).1
    refine henters.approved (hinv.expireInactive expireAt) fun key transaction index digest hactive => ?_
    exact hlog key transaction index digest (Dict.get?_filter_eq_some.mp hactive).1
  case published =>
    intro frame expireAt now outcome key replica hcommitted
    rw [receive_committed] at hcommitted
    exact (hinv.handle_effect frame expireAt now outcome).published_or (hkeyed expireAt) hcommitted
  case raised =>
    intro frame expireAt now callback
    dsimp only
    rw [receive_entered, receive_status, receive_active, receive_committed]
    intro hentered
    obtain ⟨hstatus, hreceiver⟩ := ((hinv.handle_effect frame expireAt now .raises).callback (hkeyed expireAt) hentered).2.1 rfl
    rw [hreceiver]
    exact ⟨hstatus, Dict.get?_erase_self, rfl⟩
  case interrupted =>
    intro frame expireAt now callback
    dsimp only
    rw [receive_entered, receive_status, receive_active, receive_committed]
    intro hentered
    obtain ⟨hstatus, hreceiver⟩ := ((hinv.handle_effect frame expireAt now .interrupts).callback (hkeyed expireAt) hentered).2.2 rfl
    rw [hreceiver]
    exact ⟨hstatus, rfl, rfl⟩

/-- One transaction. -/
def firstKey : Key := ⟨"0123456789abcdef0123456789abcdef", 1⟩

/-- Another transaction. -/
def secondKey : Key := ⟨"fedcba9876543210fedcba9876543210", 1⟩

def sampleContext : String := "abababababababababababababababababababababababababababababababab"

def sampleIdentity : String := "cdcdcdcdcdcdcdcdcdcdcdcdcdcdcdcdcdcdcdcdcdcdcdcdcdcdcdcdcdcdcdcd"

/-- The digest of the first transaction's chunk. -/
def firstDigest : String := "039058c6f2c0cb492c533b0a4d14ef77cc0f78abccced5287d84a1a2011cfb81"

/-- The digest of the second transaction's chunk. -/
def secondDigest : String := "787c798e39a5bc1910355bae6d0cd87a36b2e10fd0202a83e3bb6b005da83472"

/-- Open a transaction. -/
def openFrame (key : Key) : Frame := ⟨key, 0, .begin sampleContext sampleIdentity⟩

/-- The only chunk of the first transaction. -/
def firstChunk : Frame := ⟨firstKey, 1, .putChunk 0 firstDigest [1, 2, 3]⟩

/-- The only chunk of the second transaction. -/
def secondChunk : Frame := ⟨secondKey, 1, .putChunk 0 secondDigest [4, 5, 6]⟩

def firstRecord : CommitRecord := ⟨firstKey.transactionId, 1, sampleContext, [firstDigest]⟩

/-- The digest of that record. -/
def firstManifest : String := "20198f0470efd61164b1da98495634921355d10cac8be2a52293798682684f58"

/-- Commit the first transaction. -/
def firstCommit : Frame := ⟨firstKey, 2, .commit firstManifest 1 firstRecord.bytes⟩

/-- The digests of everything that the runs below hash. -/
def sampleDigests : List (Bytes × String) :=
  [([1, 2, 3], firstDigest), ([4, 5, 6], secondDigest), (firstRecord.bytes, firstManifest),
    ((openFrame firstKey).encode.toOption.getD [], "7ed667b3071f7d9bf02a23eb3ce5abc5b023594d88eb1a1bca9f0aac6a7192c7"),
    ((openFrame secondKey).encode.toOption.getD [], "41ad3039e41a9b2b8580d22b72ffed1d7ccf4dc912649c8d904ebe60d3e5117e"),
    (firstChunk.encode.toOption.getD [], "c4aeac95a4a04e0fae3a7ccbf067435e22cf4d50dc75b020cadb88337e040842"),
    (secondChunk.encode.toOption.getD [], "3928b54ac1f8204340d52fa525125eaff2bafc0f6fe1cbb09943cc6e8f8847a1")]

/-- A host with these digests, a reader of the first commit record and a clock in seconds. -/
def sampleHost : Host ℕ where
  sha256 := fun bytes => (sampleDigests.lookup bytes).getD ""
  loads := fun bytes =>
    if bytes = firstRecord.bytes then
      .value (.obj [("chunk_digests", .arr [.str firstDigest]), ("context_digest", .str sampleContext), ("generation", .int 1),
        ("transaction_id", .str firstKey.transactionId)])
    else .malformed
  stale := fun now lastActivity => decide (30 ≤ now - lastActivity)

/-- A receiver that stages as many bytes and chunks, with a callback for commits. -/
def sampleConfig (maxStagedBytes maxStagedChunks : ℕ) (hbytes : 0 < maxStagedBytes) (hframes : 0 < maxStagedChunks) : ReceiverConfig where
  maxActiveTransactions := 4
  maxStagedBytes := maxStagedBytes
  maxStagedChunks := maxStagedChunks
  maxContextChunks := 4096
  recentCommits := 256
  recentGenerations := 512
  onChunk := false
  onStreamCommit := false
  onCommit := true
  positive := ⟨by decide, hbytes, hframes, by decide, by decide, by decide⟩

/-- A transaction is opened, staged and committed. -/
theorem receiver_is_safe_committed : ∃ s : Replicating ℕ, Safe sampleHost (sampleConfig 64 1 (by decide) (by decide)) s ∧
    s.receiver.committed.keys = [firstKey] := by
  obtain ⟨s, hs, hcommitted⟩ := Reachable.exists_of_runs
    (receiverStep sampleHost (sampleConfig 64 1 (by decide) (by decide))) {}
    [.receive (openFrame firstKey) 0 0 .returns, .receive firstChunk 1 1 .returns, .receive firstCommit 2 2 .returns]
    (fun s => decide (s.receiver.committed.keys = [firstKey])) (by decide +kernel)
  exact ⟨s, receiver_is_safe _ _ s hs, of_decide_eq_true hcommitted⟩

end SparkRing.Replication
