import SparkRing.BuddySender
import SparkRing.ReceiverSafety

/-!
# Exact retransmission

A receiver recognises a frame it answered before by what it remembers: an opened
transaction by its digests, a chunk by its frame or its place, a commit by its
manifest. While the transaction of the frame lives on, being active or remembered as
committed, only a chunk can be taken for something else: after its transaction was
committed, or where another chunk took its frame's number.
-/

namespace SparkRing.Replication

open OrderedDict TransitionSystem
open Receiver (abort checkGeneration commit handle putChunk supersede)
open Option (some.injEq)

variable {τ : Type} {host : Host τ} {config : ReceiverConfig} {r r' : Receiver τ} {frame : Frame} {expireAt now : τ}
  {outcome : CallbackOutcome} {handled : Handled τ} {transaction changed : ReceiveTransaction τ} {key : Key} {replica : CommittedReplica}
  {digest : String} {index last : ℕ} {s : Replicating ℕ}

/-- A transaction is active, or its commit is remembered. -/
def Alive (r : Receiver τ) (key : Key) : Prop := key ∈ r.active.keys ∨ key ∈ r.committed.keys

/-- A transaction is not abandoned at a reading of the clock. -/
def Fresh (host : Host τ) (r : Receiver τ) (key : Key) (expireAt : τ) : Prop :=
  ∀ transaction, r.active.get? key = some transaction → host.stale expireAt transaction.lastActivity = false

/-- A receiver goes on, and a transaction lives through it: no expiry of it, and no frame of
a newer generation. -/
inductive Lives (host : Host τ) (config : ReceiverConfig) (key : Key) (r : Receiver τ) : Receiver τ → Prop
  /-- Nothing happens. -/
  | start : Alive r key → Lives host config key r r
  | receive {s : Receiver τ} {frame : Frame} {expireAt now : τ} {outcome : CallbackOutcome} : Lives host config key r s →
      Fresh host s key expireAt → (frame.key.transactionId = key.transactionId → frame.key.generation ≤ key.generation) →
      Alive (s.receive host config frame expireAt now outcome).1.receiver key →
      Lives host config key r (s.receive host config frame expireAt now outcome).1.receiver
  /-- Abandoned transactions are discarded. -/
  | expireInactive {s : Receiver τ} {now : τ} : Lives host config key r s → Fresh host s key now →
      Lives host config key r (s.expireInactive host now)

/-- A transaction that only gains chunks and frames. -/
structure ReceiveTransaction.Grows (transaction changed : ReceiveTransaction τ) : Prop where
  contextDigest : changed.contextDigest = transaction.contextDigest
  identityDigest : changed.identityDigest = transaction.identityDigest
  chunks : ∀ index chunk, transaction.chunks.get? index = some chunk → changed.chunks.get? index = some chunk
  /-- All its frames. -/
  sequences : ∀ sequence seen, transaction.sequences.get? sequence = some seen → changed.sequences.get? sequence = some seen

theorem ReceiveTransaction.Grows.refl (transaction : ReceiveTransaction τ) : transaction.Grows transaction :=
  ⟨rfl, rfl, fun _ _ h => h, fun _ _ h => h⟩

/-- A transaction that is active after a frame was active before and grew, or was opened. -/
theorem Effect.active_or (hkeyed : Keyed r) (he : Effect host config r frame now outcome handled)
    (h : handled.receiver.active.get? key = some changed) :
    (∃ transaction, r.active.get? key = some transaction ∧ transaction.Grows changed) ∨
      key = frame.key ∧ r.committed.get? key = none ∧ r.active.get? key = none := by
  have hsame : r.active.get? key = some changed → ∃ transaction, r.active.get? key = some transaction ∧ transaction.Grows changed :=
    fun hold => ⟨changed, hold, .refl changed⟩
  have hset : ∀ {active : Dict Key (ReceiveTransaction τ)} {place : Key} {new : ReceiveTransaction τ},
      (active.set place new).get? key = some changed → key = place ∧ changed = new ∨ active.get? key = some changed := by
    intro active place new hfound
    rw [Dict.get?_set] at hfound
    split_ifs at hfound with hkey
    · rw [some.injEq] at hfound
      exact .inl ⟨hkey, hfound.symm⟩
    · exact .inr hfound
  cases he with
  | still | interrupted => exact .inl (hsame h)
  | dropped | overrun | published =>
    exact .inl (hsame (Dict.get?_filter_eq_some.mp h).1)
  | @touched found hactive =>
    left
    rcases hset h with ⟨hkey, rfl⟩ | hold
    · rw [hkeyed _ _ hactive] at hkey
      exact ⟨found, hkey ▸ hactive, rfl, rfl, fun _ _ hchunk => hchunk, fun _ _ hseen => hseen⟩
    · exact hsame hold
  | opened hbody hcurrent hcommitted hnone hroom =>
    rcases hset h with ⟨rfl, -⟩ | hold
    · exact .inr ⟨rfl, hcommitted, hnone⟩
    left
    refine hsame ?_
    unfold supersede at hold
    split at hold
    · exact hold
    split at hold
    · exact (Dict.get?_filter_eq_some.mp hold).1
    · exact hold
  | @staged found index digest payload fingerprint entered hstages hbounds houtcome =>
    left
    have hlisted := hkeyed _ _ hstages.active
    rcases hset h with ⟨hkey, rfl⟩ | hold
    · replace hkey : key = frame.key := hkey.trans hlisted
      refine ⟨found, hkey ▸ hstages.active, rfl, rfl, fun place chunk hchunk => ?_, fun sequence seen hseen => ?_⟩
      · refine (Dict.get?_set_of_ne ?_).trans hchunk
        rintro rfl
        rw [hstages.free] at hchunk
        cases hchunk
      refine (Dict.get?_set_of_ne ?_).trans hseen
      rintro rfl
      rw [hstages.sequence] at hseen
      cases hseen
    · exact hsame hold

/-- One frame in the life of a transaction: an active one grows or is committed as it is, and
a committed one stays committed. -/
structure Onward (key : Key) (r r' : Receiver τ) : Prop where
  /-- An active transaction grows, or is committed. -/
  active : ∀ transaction, r.active.get? key = some transaction →
    (∃ changed, r'.active.get? key = some changed ∧ transaction.Grows changed) ∨
      r'.active.get? key = none ∧ ∃ replica, r'.committed.get? key = some replica ∧
        replica.contextDigest = transaction.contextDigest ∧ replica.identityDigest = transaction.identityDigest
  /-- A commit stays remembered. -/
  committed : ∀ replica, r.committed.get? key = some replica →
    r'.active.get? key = none ∧ r'.committed.get? key = some replica

/-- A frame leads a transaction that lives on onward. -/
theorem Inv.onward (h : Inv host config r) (he : Effect host config r frame now outcome handled)
    (hafter : Alive handled.receiver key) : Onward key r handled.receiver := by
  have hpublished : ∀ replica, handled.receiver.committed.get? key = some replica →
      r.committed.get? key = some replica ∨ ∃ transaction, r.active.get? key = some transaction ∧
        replica.contextDigest = transaction.contextDigest ∧ replica.identityDigest = transaction.identityDigest := by
    intro replica hreplica
    rcases he.published_or h.keyed hreplica with hold | ⟨rfl, transaction, ordered, record, hverified⟩
    · exact .inl hold
    · exact .inr ⟨transaction, hverified.active, hverified.contextDigest, hverified.identityDigest⟩
  have hgone : handled.receiver.active.get? key = none → ∃ replica, handled.receiver.committed.get? key = some replica := by
    intro hnone
    rcases hafter with hactive | hcommitted
    · exact absurd hactive (Dict.get?_eq_none_iff.mp hnone)
    · exact Dict.mem_keys_iff.mp hcommitted
  constructor
  case active =>
    intro transaction hactive
    cases hthen : handled.receiver.active.get? key with
    | some changed =>
      left
      rcases he.active_or h.keyed hthen with ⟨found, hfound, hgrows⟩ | ⟨rfl, -, hnone⟩
      · rw [hactive, some.injEq] at hfound
        exact ⟨changed, rfl, hfound ▸ hgrows⟩
      · rw [hactive] at hnone
        cases hnone
    | none =>
      obtain ⟨replica, hreplica⟩ := hgone hthen
      refine .inr ⟨rfl, replica, hreplica, ?_⟩
      rcases hpublished replica hreplica with hold | ⟨found, hfound, hsame⟩
      · rw [h.apart key transaction hactive] at hold
        cases hold
      · rw [hactive, some.injEq] at hfound
        exact hfound ▸ hsame
  case committed =>
    intro replica hreplica
    have hinactive : r.active.get? key = none := by
      refine Option.eq_none_iff_forall_ne_some.mpr fun transaction hactive => ?_
      rw [h.apart key transaction hactive] at hreplica
      cases hreplica
    have hnone : handled.receiver.active.get? key = none := by
      refine Option.eq_none_iff_forall_ne_some.mpr fun changed hthen => ?_
      rcases he.active_or h.keyed hthen with ⟨found, hfound, -⟩ | ⟨rfl, hcommitted, -⟩
      · rw [hinactive] at hfound
        cases hfound
      · rw [hreplica] at hcommitted
        cases hcommitted
    obtain ⟨other, hother⟩ := hgone hnone
    refine ⟨hnone, ?_⟩
    rcases hpublished other hother with hold | ⟨found, hfound, -⟩
    · rw [hreplica, some.injEq] at hold
      exact hold ▸ hother
    · rw [hinactive] at hfound
      cases hfound

theorem get?_of_trimGenerations {limit turns : ℕ} {active : Dict Key (ReceiveTransaction τ)} {latest : Dict String ℕ} {id : String}
    {generation : ℕ} (h : (trimGenerations limit active turns latest).get? id = some generation) : latest.get? id = some generation := by
  induction turns generalizing latest with
  | zero => exact h
  | succ turns ih =>
    rw [trimGenerations] at h
    split at h
    · exact h
    split at h
    · exact h
    · exact (Dict.get?_erase_eq_some.mp (ih h)).2

/-- Frames that are not newer leave a generation current. -/
theorem Effect.checkGeneration (he : Effect host config r frame now outcome handled) (h : r.checkGeneration key = true)
    (hnewer : frame.key.transactionId = key.transactionId → frame.key.generation ≤ key.generation) :
    handled.receiver.checkGeneration key = true := by
  cases he with
  | still status | interrupted henters houtcome | dropped hkey hstatus hentered | overrun hstages hexceeds houtcome
  | touched | staged | published => exact h
  | opened hbody hcurrent hcommitted hnone hroom =>
    have hsame : (r.supersede frame.key).latestGeneration = r.latestGeneration := by
      unfold supersede
      split
      · rfl
      · split <;> rfl
    unfold checkGeneration
    split
    · rfl
    next latest hlatest =>
      replace hlatest := get?_of_trimGenerations hlatest
      rw [Dict.get?_moveToEnd, Dict.get?_set] at hlatest
      split_ifs at hlatest with hid
      · rw [some.injEq] at hlatest
        exact decide_eq_true (hlatest ▸ hnewer hid.symm)
      have hold : r.latestGeneration.get? key.transactionId = some latest := hsame ▸ hlatest
      simp only [checkGeneration, hold] at h
      exact h

/-- What is not abandoned stays active through an expiry. -/
theorem Fresh.expireInactive (h : Fresh host r key now) : (r.expireInactive host now).active.get? key = r.active.get? key := by
  refine Dict.get?_congr fun transaction => ?_
  rw [← Dict.get?_eq_some_iff, ← Dict.get?_eq_some_iff]
  refine Dict.get?_filter_eq_some.trans (and_iff_left_of_imp fun hactive => ?_)
  rw [h transaction hactive, Bool.not_false]

/-- An active transaction knows a frame that it was answered. -/
def KnownActive (host : Host τ) (frame : Frame) (transaction : ReceiveTransaction τ) : Prop :=
  match frame.body with
  | .begin contextDigest identityDigest =>
    transaction.contextDigest = contextDigest ∧ transaction.identityDigest = identityDigest
  | .putChunk index digest payload =>
    ∃ encoded, frame.encode = .ok encoded ∧
      (transaction.sequences.get? frame.sequence = some (host.sha256 encoded) ∨
        host.sha256 payload = digest ∧ ∃ staged, transaction.chunks.get? index = some (digest, staged) ∧
          (staged = none ∨ staged = some payload))
  | _ => False

/-- A commit knows a frame that its transaction was answered. -/
def KnownCommitted (frame : Frame) (replica : CommittedReplica) : Prop :=
  match frame.body with
  | .begin contextDigest identityDigest => replica.contextDigest = contextDigest ∧ replica.identityDigest = identityDigest
  | .putChunk .. => True
  | .commit manifestDigest _ _ => replica.manifestDigest = manifestDigest
  | .abort _ => True
  | _ => False

/-- The transaction of a frame lives and knows the frame. -/
def Remembered (host : Host τ) (frame : Frame) (r : Receiver τ) : Prop :=
  (∃ transaction, r.active.get? frame.key = some transaction ∧ KnownActive host frame transaction) ∨
    r.active.get? frame.key = none ∧ ∃ replica, r.committed.get? frame.key = some replica ∧ KnownCommitted frame replica

theorem KnownActive.grows (h : KnownActive host frame transaction) (hg : transaction.Grows changed) : KnownActive host frame changed := by
  unfold KnownActive at h ⊢
  split
  next hbody =>
    rw [hbody] at h
    exact ⟨hg.contextDigest.trans h.1, hg.identityDigest.trans h.2⟩
  next hbody =>
    rw [hbody] at h
    obtain ⟨encoded, hencoded, hknown⟩ := h
    refine ⟨encoded, hencoded, ?_⟩
    rcases hknown with hseen | ⟨hhashed, staged, hchunk, hstaged⟩
    · exact .inl (hg.sequences _ _ hseen)
    · exact .inr ⟨hhashed, staged, hg.chunks _ _ hchunk, hstaged⟩
  next hbegin hput =>
    split at h
    next hbody => exact (hbegin _ _ hbody).elim
    next hbody => exact (hput _ _ _ hbody).elim
    · exact h

theorem KnownActive.committed (h : KnownActive host frame transaction)
    (hcontext : replica.contextDigest = transaction.contextDigest) (hidentity : replica.identityDigest = transaction.identityDigest) :
    KnownCommitted frame replica := by
  unfold KnownActive at h
  unfold KnownCommitted
  split at h
  next hbody =>
    rw [hbody]
    exact ⟨hcontext.trans h.1, hidentity.trans h.2⟩
  next hbody =>
    rw [hbody]
    trivial
  · exact h.elim

/-- What is remembered of a frame stays remembered. -/
theorem Remembered.onward (h : Remembered host frame r) (ho : Onward frame.key r r') : Remembered host frame r' := by
  rcases h with ⟨transaction, hactive, hknown⟩ | ⟨-, replica, hcommitted, hknown⟩
  · rcases ho.active transaction hactive with ⟨changed, hchanged, hgrows⟩ | ⟨hnone, replica, hreplica, hcontext, hidentity⟩
    · exact .inl ⟨changed, hchanged, hknown.grows hgrows⟩
    · exact .inr ⟨hnone, replica, hreplica, hknown.committed hcontext hidentity⟩
  · obtain ⟨hnone, hreplica⟩ := ho.committed replica hcommitted
    exact .inr ⟨hnone, replica, hreplica, hknown⟩

/-- A fresh transaction is remembered through an expiry. -/
theorem Remembered.expireInactive (h : Remembered host frame r) (hfresh : Fresh host r frame.key now) :
    Remembered host frame (r.expireInactive host now) := by
  rcases h with ⟨transaction, hactive, hknown⟩ | ⟨hnone, hcommitted⟩
  · exact .inl ⟨transaction, hfresh.expireInactive.trans hactive, hknown⟩
  · exact .inr ⟨hfresh.expireInactive.trans hnone, hcommitted⟩

/-- Only the responses are numbered on. -/
theorem remembered_receive {other : Frame} : Remembered host other (r.receive host config frame expireAt now outcome).1.receiver ↔
    Remembered host other ((r.expireInactive host expireAt).handle host config frame now outcome).receiver := by
  unfold Remembered
  rw [receive_active, receive_committed]

/-- An answer that does not refuse the frame. -/
def Status.good : Status → Bool
  | .ok | .duplicate | .committed => true
  | .aborted | .rejected => false

/-- A frame was handled and not refused. -/
def Handled.Good (handled : Handled τ) : Prop := ∃ status, handled.status = some status ∧ status.good = true

theorem not_good_aborted (h : handled.status = some .aborted) : ¬handled.Good := by
  rintro ⟨status, hstatus, hgood⟩
  rw [h, some.injEq] at hstatus
  subst hstatus
  cases hgood

theorem not_good_rejected (h : handled.status = some .rejected) : ¬handled.Good := by
  rintro ⟨status, hstatus, hgood⟩
  rw [h, some.injEq] at hstatus
  subst hstatus
  cases hgood

theorem not_good_raised (h : handled.status = none) : ¬handled.Good := by
  rintro ⟨status, hstatus, -⟩
  rw [h] at hstatus
  cases hstatus

theorem Inv.inactive_of_committed (h : Inv host config r) (hcommitted : r.committed.get? key = some replica) :
    r.active.get? key = none := by
  refine Option.eq_none_iff_forall_ne_some.mpr fun transaction hactive => ?_
  rw [h.apart key transaction hactive] at hcommitted
  cases hcommitted

theorem active_touch (hkeyed : Keyed r) (hactive : r.active.get? key = some transaction) :
    (r.touch transaction now).active.get? key = some { transaction with lastActivity := now } := by
  have hkey := hkeyed _ _ hactive
  subst hkey
  exact Dict.get?_set_self

theorem remembered_begin {contextDigest identityDigest : String} (h : Inv host config r)
    (hbody : frame.body = .begin contextDigest identityDigest) : (r.begin host config frame contextDigest identityDigest now).Good →
      Remembered host frame (r.begin host config frame contextDigest identityDigest now).receiver := by
  unfold Receiver.begin
  dsimp only
  split
  next committed hcommitted =>
    split
    next hsame =>
      intro _
      refine .inr ⟨h.inactive_of_committed hcommitted, committed, hcommitted, ?_⟩
      rw [KnownCommitted, hbody]
      exact hsame
    · exact fun hgood => (not_good_rejected rfl hgood).elim
  next hcommitted =>
    split
    next existing hactive =>
      split
      next hsame =>
        intro _
        refine .inl ⟨_, active_touch h.keyed hactive, ?_⟩
        rw [KnownActive, hbody]
        exact hsame
      · exact fun hgood => (not_good_aborted rfl hgood).elim
    next hactive =>
      split
      · exact fun hgood => (not_good_rejected rfl hgood).elim
      next hroom =>
        split
        · exact fun hgood => (not_good_raised rfl hgood).elim
        next encoded hencoded =>
          intro _
          refine .inl ⟨openTransaction frame.key contextDigest identityDigest frame.sequence (host.sha256 encoded) now,
            Dict.get?_set_self, ?_⟩
          rw [KnownActive, hbody]
          exact ⟨rfl, rfl⟩

variable {payload : Bytes}

theorem remembered_putChunk (h : Inv host config r) (hbody : frame.body = .putChunk index digest payload) :
    (r.putChunk host config frame index digest payload now outcome).Good →
      Remembered host frame (r.putChunk host config frame index digest payload now outcome).receiver := by
  have hknown : ∀ {found : ReceiveTransaction τ} {encoded : Bytes}, frame.encode = .ok encoded →
      (found.sequences.get? frame.sequence = some (host.sha256 encoded) ∨
        host.sha256 payload = digest ∧ ∃ staged, found.chunks.get? index = some (digest, staged) ∧
          (staged = none ∨ staged = some payload)) → KnownActive host frame found := by
    intro found encoded hencoded hfound
    rw [KnownActive, hbody]
    exact ⟨encoded, hencoded, hfound⟩
  unfold putChunk
  split
  · exact fun hgood => (not_good_rejected rfl hgood).elim
  next found hactive =>
    split
    · exact fun hgood => (not_good_raised rfl hgood).elim
    next encoded hencoded =>
      dsimp only
      -- a chunk that is staged leaves its fingerprint
      have hstage : ∀ staged entered, (r.stage config found frame.sequence (host.sha256 encoded) index digest staged now entered).Good →
          Remembered host frame
            (r.stage config found frame.sequence (host.sha256 encoded) index digest staged now entered).receiver := by
        intro staged entered
        unfold Receiver.stage
        split
        · exact fun hgood => (not_good_aborted rfl hgood).elim
        next hbounds =>
          intro _
          refine .inl ⟨{ found with
              lastActivity := now
              chunks := found.chunks.set index (digest, staged)
              sequences := found.sequences.set frame.sequence (host.sha256 encoded) }, ?_, hknown hencoded (.inl Dict.get?_set_self)⟩
          have hkey := h.keyed _ _ hactive
          rw [← hkey]
          exact Dict.get?_set_self
      split
      next seen hseen =>
        split
        next hsame => exact fun _ => .inl ⟨_, active_touch h.keyed hactive, hknown hencoded (.inl (hsame ▸ hseen))⟩
        · exact fun hgood => (not_good_aborted rfl hgood).elim
      next hsequence =>
        split
        · exact fun hgood => (not_good_aborted rfl hgood).elim
        next hhashed =>
          split
          next existing hexisting =>
            split
            next hsame =>
              intro _
              refine .inl ⟨_, active_touch h.keyed hactive, hknown hencoded (.inr ⟨not_not.mp hhashed, existing.2, ?_, hsame.2⟩)⟩
              exact hexisting.trans (congrArg some (Prod.ext hsame.1 rfl))
            · exact fun hgood => (not_good_aborted rfl hgood).elim
          next hfree =>
            split
            · exact fun hgood => (not_good_aborted rfl hgood).elim
            split
            next hmode =>
              cases outcome with
              | raises => exact fun hgood => (not_good_aborted rfl hgood).elim
              | interrupts => exact fun hgood => (not_good_raised rfl hgood).elim
              | returns => exact hstage _ _
            next hmode => exact hstage _ _

/-- A commit that was answered is remembered where its transaction lives on. -/
theorem remembered_commit {manifestDigest : String} {chunkCount : ℕ} (h : Inv host config r)
    (hbody : frame.body = .commit manifestDigest chunkCount payload) :
    (r.commit host config frame.key manifestDigest chunkCount payload outcome).Good →
      Alive (r.commit host config frame.key manifestDigest chunkCount payload outcome).receiver frame.key →
      Remembered host frame (r.commit host config frame.key manifestDigest chunkCount payload outcome).receiver := by
  unfold commit
  split
  next prior hprior =>
    split
    next hsame =>
      intro _ _
      refine .inr ⟨h.inactive_of_committed hprior, prior, hprior, ?_⟩
      rw [KnownCommitted, hbody]
      exact hsame
    · exact fun hgood => (not_good_rejected rfl hgood).elim
  next hprior =>
    split
    · exact fun hgood => (not_good_rejected rfl hgood).elim
    next found hactive =>
      split
      · exact fun hgood => (not_good_aborted rfl hgood).elim
      split
      · exact fun hgood => (not_good_raised rfl hgood).elim
      · exact fun hgood => (not_good_aborted rfl hgood).elim
      split
      · exact fun hgood => (not_good_aborted rfl hgood).elim
      split
      · exact fun hgood => (not_good_raised rfl hgood).elim
      next ordered hordered =>
        split
        · exact fun hgood => (not_good_aborted rfl hgood).elim
        dsimp only
        generalize hreplica : (⟨found.key, found.contextDigest, found.identityDigest, manifestDigest,
          ordered.map Prod.fst⟩ : CommittedReplica) = replica
        have hkey : replica.key = frame.key := (hreplica ▸ rfl : replica.key = found.key).trans (h.keyed _ _ hactive)
        have hmanifest : replica.manifestDigest = manifestDigest := hreplica ▸ rfl
        -- nothing is active under the key, so what lives on is the new commit
        have hremembered : Alive ((r.discard replica.key).rememberCommit config replica) frame.key →
            Remembered host frame ((r.discard replica.key).rememberCommit config replica) := by
          intro halive
          have hnone : ((r.discard replica.key).rememberCommit config replica).active.get? frame.key = none :=
            hkey ▸ Dict.get?_erase_self
          rcases halive with hlisted | hcommitted
          · exact absurd hlisted (Dict.get?_eq_none_iff.mp hnone)
          obtain ⟨known, hknown⟩ := Dict.mem_keys_iff.mp hcommitted
          rcases get?_rememberCommit hknown with ⟨-, rfl⟩ | hold
          · refine .inr ⟨hnone, known, hknown, ?_⟩
            rw [KnownCommitted, hbody]
            exact hmanifest
          · rw [show (r.discard replica.key).committed = r.committed from rfl, hprior] at hold
            cases hold
        unfold Receiver.publish
        split
        · exact fun hgood => (not_good_aborted rfl hgood).elim
        · exact fun hgood => (not_good_raised rfl hgood).elim
        · exact fun _ => hremembered

/-- A frame that was handled and not refused is remembered where its transaction lives on. -/
theorem remembered_handle (h : Inv host config r) (hgood : (r.handle host config frame now outcome).Good)
    (hafter : Alive (r.handle host config frame now outcome).receiver frame.key) :
    r.checkGeneration frame.key = true ∧ Remembered host frame (r.handle host config frame now outcome).receiver := by
  unfold handle at hgood hafter ⊢
  cases hcurrent : r.checkGeneration frame.key with
  | false =>
    simp only [hcurrent, Bool.false_eq_true, if_false] at hgood
    split at hgood <;> first | exact (not_good_rejected rfl hgood).elim | exact (not_good_raised rfl hgood).elim
  | true =>
    simp only [hcurrent, if_true] at hgood hafter ⊢
    refine ⟨trivial, ?_⟩
    cases hbody : frame.body with
    | begin =>
      rw [hbody] at hgood
      exact remembered_begin h hbody hgood
    | putChunk =>
      rw [hbody] at hgood
      exact remembered_putChunk h hbody hgood
    | commit =>
      rw [hbody] at hgood hafter
      exact remembered_commit h hbody hgood hafter
    | abort reason =>
      rw [hbody] at hgood hafter
      dsimp only at hgood hafter ⊢
      unfold abort at hgood hafter ⊢
      split at hgood
      · exact (not_good_aborted rfl hgood).elim
      next hlisted =>
        rw [if_neg hlisted] at hafter ⊢
        obtain ⟨replica, hreplica⟩ := Dict.mem_keys_iff.mp (hafter.resolve_left hlisted)
        refine .inr ⟨Dict.get?_eq_none_iff.mpr hlisted, replica, hreplica, ?_⟩
        rw [KnownCommitted, hbody]
        trivial
    | ack | credit =>
      rw [hbody] at hgood
      exact (not_good_raised rfl hgood).elim

/-- Staged chunks, the active set and the commits are unchanged. -/
structure Unchanged (r r' : Receiver τ) : Prop where
  /-- The same transactions are active. -/
  active : r'.active.keys = r.active.keys
  /-- Each with the same chunks. -/
  chunks : ∀ key, (r'.active.get? key).map ReceiveTransaction.chunks = (r.active.get? key).map ReceiveTransaction.chunks
  /-- The same commits are remembered. -/
  committed : r'.committed = r.committed

theorem Unchanged.refl (r : Receiver τ) : Unchanged r r := ⟨rfl, fun _ => rfl, rfl⟩

theorem unchanged_touch (hkeyed : Keyed r) (hactive : r.active.get? key = some transaction) : Unchanged r (r.touch transaction now) := by
  obtain rfl := hkeyed _ _ hactive
  refine ⟨Dict.keys_set_of_mem (Dict.mem_keys_iff.mpr ⟨_, hactive⟩), fun other => ?_, rfl⟩
  by_cases hother : other = transaction.key
  · subst hother
    rw [active_touch hkeyed hactive, hactive]
    rfl
  · exact congrArg (Option.map ReceiveTransaction.chunks) (Dict.get?_set_of_ne hother)

/-- A chunk is not taken for another one: its transaction is active, and no other frame was
accepted under its number. Every other frame is recognised anyway. -/
def Recognised (host : Host τ) (r : Receiver τ) (frame : Frame) : Prop :=
  frame.isPutChunk = true → ∃ transaction, r.active.get? frame.key = some transaction ∧
    ∀ seen encoded, transaction.sequences.get? frame.sequence = some seen → frame.encode = .ok encoded → seen = host.sha256 encoded

/-- A chunk that its transaction knows is a duplicate exactly where no other frame took its
number. -/
theorem putChunk_again (h : Inv host config r)
    (hbody : frame.body = .putChunk index digest payload) (hremembered : Remembered host frame r) :
    ((r.putChunk host config frame index digest payload now outcome).Good ∧
      Unchanged r (r.putChunk host config frame index digest payload now outcome).receiver) ↔ Recognised host r frame := by
  have hput : frame.isPutChunk = true := by
    simp only [Frame.isPutChunk, hbody]
  rcases hremembered with ⟨found, hactive, hknown⟩ | ⟨hnone, -⟩
  · rw [KnownActive, hbody] at hknown
    obtain ⟨encoded, hencoded, hknown⟩ := hknown
    have hduplicate : ((r.touch found now).answer .duplicate).Good ∧ Unchanged r ((r.touch found now).answer .duplicate).receiver :=
      ⟨⟨.duplicate, rfl, rfl⟩, unchanged_touch h.keyed hactive⟩
    unfold putChunk
    simp only [hactive, hencoded]
    cases hseen : found.sequences.get? frame.sequence with
    | some seen =>
      dsimp only
      split_ifs with hsame
      · refine iff_of_true hduplicate fun _ => ⟨found, hactive, fun other bytes hother hbytes => ?_⟩
        rw [hseen, some.injEq] at hother
        rw [hencoded, Except.ok.injEq] at hbytes
        rw [← hother, ← hbytes, hsame]
      refine iff_of_false (fun hgood => not_good_aborted rfl hgood.1) fun hrecognised => ?_
      obtain ⟨other, hother, hall⟩ := hrecognised hput
      rw [hactive, some.injEq] at hother
      exact hsame (hall seen encoded (hother ▸ hseen) hencoded)
    | none =>
      obtain ⟨hhashed, staged, hchunk, hstaged⟩ := hknown.resolve_left (by rw [hseen]; exact nofun)
      simp only [hhashed, ne_eq, not_true_eq_false, if_false, hchunk]
      rw [if_pos ⟨trivial, hstaged⟩]
      refine iff_of_true hduplicate fun _ => ⟨found, hactive, fun other bytes hother hbytes => ?_⟩
      rw [hseen] at hother
      cases hother
  · unfold putChunk
    simp only [hnone]
    refine iff_of_false (fun hgood => not_good_rejected rfl hgood.1) fun hrecognised => ?_
    obtain ⟨other, hother, -⟩ := hrecognised hput
    rw [hnone] at hother
    cases hother

/-- A frame that is remembered is harmless exactly where it is recognised. -/
theorem handle_again (h : Inv host config r) (hcurrent : r.checkGeneration frame.key = true) (hremembered : Remembered host frame r) :
    ((r.handle host config frame now outcome).Good ∧ Unchanged r (r.handle host config frame now outcome).receiver) ↔
      Recognised host r frame := by
  have hother : frame.isPutChunk = false → Recognised host r frame := by
    intro hput hthen
    rw [hput] at hthen
    cases hthen
  unfold handle
  simp only [hcurrent, if_true]
  cases hbody : frame.body with
  | putChunk => exact putChunk_again h hbody hremembered
  | begin =>
    refine iff_of_true ?_ (hother (by simp only [Frame.isPutChunk, hbody]))
    unfold Receiver.begin
    rcases hremembered with ⟨found, hactive, hknown⟩ | ⟨-, replica, hcommitted, hknown⟩
    · rw [KnownActive, hbody] at hknown
      simp only [h.apart _ _ hactive, hactive]
      rw [if_pos hknown]
      exact ⟨⟨.duplicate, rfl, rfl⟩, unchanged_touch h.keyed hactive⟩
    rw [KnownCommitted, hbody] at hknown
    simp only [hcommitted]
    rw [if_pos hknown]
    exact ⟨⟨.committed, rfl, rfl⟩, .refl r⟩
  | commit =>
    refine iff_of_true ?_ (hother (by simp only [Frame.isPutChunk, hbody]))
    unfold commit
    rcases hremembered with ⟨found, hactive, hknown⟩ | ⟨-, replica, hcommitted, hknown⟩
    · rw [KnownActive, hbody] at hknown
      exact hknown.elim
    rw [KnownCommitted, hbody] at hknown
    simp only [hcommitted]
    rw [if_pos hknown]
    exact ⟨⟨.committed, rfl, rfl⟩, .refl r⟩
  | abort =>
    refine iff_of_true ?_ (hother (by simp only [Frame.isPutChunk, hbody]))
    unfold abort
    rcases hremembered with ⟨found, hactive, hknown⟩ | ⟨hnone, -⟩
    · rw [KnownActive, hbody] at hknown
      exact hknown.elim
    · rw [if_neg (Dict.get?_eq_none_iff.mp hnone)]
      exact ⟨⟨.duplicate, rfl, rfl⟩, .refl r⟩
  | ack | credit =>
    rcases hremembered with ⟨found, hactive, hknown⟩ | ⟨-, replica, hcommitted, hknown⟩
    · rw [KnownActive, hbody] at hknown
      exact hknown.elim
    · rw [KnownCommitted, hbody] at hknown
      exact hknown.elim

theorem Lives.alive_start (h : Lives host config key r r') : Alive r key := by
  induction h with
  | start halive => exact halive
  | receive _ _ _ _ ih | expireInactive _ _ ih => exact ih

/-- What is remembered of a frame stays remembered while its transaction lives. -/
theorem Lives.remembered (h : Lives host config frame.key r r') (hinv : Inv host config r) (hremembered : Remembered host frame r)
    (hcurrent : r.checkGeneration frame.key = true) :
    Inv host config r' ∧ Remembered host frame r' ∧ r'.checkGeneration frame.key = true := by
  induction h with
  | start halive => exact ⟨hinv, hremembered, hcurrent⟩
  | expireInactive hlives hfresh ih =>
    obtain ⟨hinv', hremembered', hcurrent'⟩ := ih
    exact ⟨hinv'.expireInactive _, hremembered'.expireInactive hfresh, hcurrent'⟩
  | @receive s other expireAt now outcome hlives hfresh hnewer halive ih =>
    obtain ⟨hinv', hremembered', hcurrent'⟩ := ih
    have hexpired := hinv'.expireInactive expireAt
    have heffect := hinv'.handle_effect other expireAt now outcome
    refine ⟨hinv'.receive other expireAt now outcome, remembered_receive.mpr ?_, ?_⟩
    · refine (hremembered'.expireInactive hfresh).onward (hexpired.onward heffect ?_)
      rw [Alive, receive_active, receive_committed] at halive
      exact halive
    unfold checkGeneration
    rw [receive_latestGeneration]
    exact heffect.checkGeneration hcurrent' hnewer

/-- A frame was answered and not refused, and its transaction lives on to a receiver. -/
def AnsweredOnce (host : Host τ) (config : ReceiverConfig) (frame : Frame) (r : Receiver τ) : Prop :=
  ∃ (s : Replicating τ) (expireAt now : τ) (outcome : CallbackOutcome),
    Reachable (receiverStep host config) Unrestricted {} s ∧
    (s.receiver.receive host config frame expireAt now outcome).1.Good ∧
    Lives host config frame.key (s.receiver.receive host config frame expireAt now outcome).1.receiver r

/-- Receiving a frame is harmless: it is answered and not refused, changes nothing but the
expiry, and no sender takes the answer for a refusal. -/
structure Harmless (host : Host τ) (config : ReceiverConfig) (r : Receiver τ) (frame : Frame) (expireAt now : τ)
    (outcome : CallbackOutcome) : Prop where
  /-- The frame is not refused. -/
  good : (r.receive host config frame expireAt now outcome).1.Good
  /-- Nothing changes but the expiry. -/
  unchanged : Unchanged (r.expireInactive host expireAt) (r.receive host config frame expireAt now outcome).1.receiver
  /-- No sender marks the transaction local-only for the answer. -/
  localOnly : ∀ (senderConfig : SenderConfig) (sender : Sender), ∀ answer ∈ (r.receive host config frame expireAt now outcome).2,
    (sender.acknowledge senderConfig answer).1.localOnly = sender.localOnly

/-- A sender does not mark a transaction for an answer that is no refusal. -/
theorem localOnly_acknowledge {status : Status} (hgood : status.good = true) (senderConfig : SenderConfig) (sender : Sender) :
    ∀ answer ∈ r.responses config frame status, (sender.acknowledge senderConfig answer).1.localOnly = sender.localOnly := by
  intro answer hanswer
  simp only [Receiver.responses, List.mem_cons, List.not_mem_nil, or_false] at hanswer
  rcases hanswer with rfl | rfl
  · simp only [Sender.acknowledge]
    split
    · cases status with
      | ok | duplicate | committed => rfl
      | aborted | rejected => cases hgood
    · rfl
  · rfl

/-- Of a frame that was answered, its receiver remembers what it needs to recognise it. -/
theorem AnsweredOnce.remembered (h : AnsweredOnce host config frame r) :
    Inv host config r ∧ Remembered host frame r ∧ r.checkGeneration frame.key = true := by
  obtain ⟨s, expireAt, now, outcome, hs, hgood, hlives⟩ := h
  have hstart := (inv_reachable hs).1
  have halive := hlives.alive_start
  rw [Alive, receive_active, receive_committed] at halive
  have hhandled : ((s.receiver.expireInactive host expireAt).handle host config frame now outcome).Good := by
    rw [Handled.Good, receive_status] at hgood
    exact hgood
  obtain ⟨hcurrent, hremembered⟩ := remembered_handle (hstart.expireInactive expireAt) hhandled halive
  refine hlives.remembered (hstart.receive frame expireAt now outcome) (remembered_receive.mpr hremembered) ?_
  unfold checkGeneration
  rw [receive_latestGeneration]
  exact (hstart.handle_effect frame expireAt now outcome).checkGeneration hcurrent fun _ => le_rfl

/-- A frame that was once answered and not refused is harmless at every later moment of its
transaction's life, except for a chunk that is not recognised. -/
theorem retransmission_harmless_iff (host : Host τ) (config : ReceiverConfig) (frame : Frame) (r : Receiver τ) (expireAt now : τ)
    (outcome : CallbackOutcome) (hanswered : AnsweredOnce host config frame r) (hfresh : Fresh host r frame.key expireAt) :
    Harmless host config r frame expireAt now outcome ↔ Recognised host r frame := by
  obtain ⟨hinv, hremembered, hcurrent⟩ := hanswered.remembered
  have hrecognised : Recognised host (r.expireInactive host expireAt) frame ↔ Recognised host r frame := by
    unfold Recognised
    rw [hfresh.expireInactive]
  rw [← hrecognised, ← handle_again (hinv.expireInactive expireAt) hcurrent (hremembered.expireInactive hfresh)]
  have hgood : (r.receive host config frame expireAt now outcome).1.Good ↔
      ((r.expireInactive host expireAt).handle host config frame now outcome).Good := by
    rw [Handled.Good, receive_status, Handled.Good]
  have hunchanged : Unchanged (r.expireInactive host expireAt) (r.receive host config frame expireAt now outcome).1.receiver ↔
      Unchanged (r.expireInactive host expireAt) ((r.expireInactive host expireAt).handle host config frame now outcome).receiver := by
    constructor
    · rintro ⟨hactive, hchunks, hcommitted⟩
      rw [receive_active] at hactive hchunks
      rw [receive_committed] at hcommitted
      exact ⟨hactive, hchunks, hcommitted⟩
    rintro ⟨hactive, hchunks, hcommitted⟩
    refine ⟨?_, ?_, ?_⟩
    · rw [receive_active, hactive]
    · rw [receive_active]
      exact hchunks
    · rw [receive_committed, hcommitted]
  constructor
  · rintro ⟨hg, hu, -⟩
    exact ⟨hgood.mp hg, hunchanged.mp hu⟩
  rintro ⟨hg, hu⟩
  refine ⟨hgood.mpr hg, hunchanged.mpr hu, fun senderConfig sender => ?_⟩
  obtain ⟨status, hstatus, hstatusGood⟩ := hg
  have hresponses : (r.receive host config frame expireAt now outcome).2 =
      ((r.expireInactive host expireAt).handle host config frame now outcome).receiver.responses config frame status := by
    unfold Receiver.receive
    simp only [hstatus]
  rw [hresponses]
  exact localOnly_acknowledge hstatusGood senderConfig sender

/-- A receiver of one transaction of one chunk. -/
def oneChunk : ReceiverConfig := sampleConfig 64 1 (by decide) Nat.one_pos

/-- A frame is received at a reading of the clock. -/
def receivedAt (r : Receiver ℕ) (frame : Frame) (now : ℕ) : Handled ℕ :=
  (r.receive sampleHost oneChunk frame now now .returns).1

/-- The active transactions, each with the time it was last active. -/
def activity (r : Receiver ℕ) : List (Key × ℕ) := r.active.items.map fun item => (item.1, item.2.lastActivity)

/-- A transaction is opened, its chunk is staged, and it is committed; then the chunk comes again. -/
theorem closed_run : ∃ opened chunked closed late : Handled ℕ, receivedAt {} (openFrame firstKey) 0 = opened ∧
    receivedAt opened.receiver firstChunk 1 = chunked ∧ receivedAt chunked.receiver firstCommit 2 = closed ∧
    receivedAt closed.receiver firstChunk 3 = late ∧ opened.status = some .ok ∧ activity opened.receiver = [(firstKey, 0)] ∧
    chunked.status = some .ok ∧ activity chunked.receiver = [(firstKey, 1)] ∧ activity closed.receiver = [] ∧
    closed.receiver.committed.keys = [firstKey] ∧ late.status = some .rejected :=
  ⟨_, _, _, _, rfl, rfl, rfl, rfl, by decide +kernel⟩

theorem keys_eq_activity (r : Receiver ℕ) : r.active.keys = (activity r).map Prod.fst := by
  rw [activity, List.map_map]
  rfl

theorem fresh_of_activity {r : Receiver ℕ} {now : ℕ} (h : activity r = [(firstKey, last)]) (hnow : now < last + 30) :
    Fresh sampleHost r firstKey now := by
  intro transaction hactive
  have hmem : (firstKey, transaction.lastActivity) ∈ activity r := List.mem_map_of_mem (Dict.get?_eq_some_iff.mp hactive)
  rw [h, List.mem_singleton, Prod.mk.injEq] at hmem
  simp only [sampleHost, decide_eq_false_iff_not]
  omega

theorem fresh_of_inactive {r : Receiver ℕ} {now : ℕ} (h : activity r = []) : Fresh sampleHost r firstKey now := by
  intro transaction hactive
  have hmem := Dict.mem_keys_iff.mpr ⟨transaction, hactive⟩
  rw [keys_eq_activity, h] at hmem
  cases hmem

theorem alive_of_activity {r : Receiver ℕ} (h : activity r = [(firstKey, last)]) : Alive r firstKey := by
  left
  rw [keys_eq_activity, h]
  exact List.mem_singleton_self _

theorem alive_of_committed {r : Receiver ℕ} (h : r.committed.keys = [firstKey]) : Alive r firstKey := by
  right
  rw [h]
  exact List.mem_singleton_self _

theorem lives_receivedAt {r s : Receiver ℕ} {frame : Frame} {now : ℕ} {handled : Handled ℕ}
    (h : Lives sampleHost oneChunk firstKey r s) (hfresh : Fresh sampleHost s firstKey now) (hkey : frame.key = firstKey)
    (hhandled : receivedAt s frame now = handled) (halive : Alive handled.receiver firstKey) :
    Lives sampleHost oneChunk firstKey r handled.receiver := by
  subst hhandled
  exact .receive h hfresh (fun _ => hkey ▸ le_rfl) halive

theorem answered_receivedAt {r : Receiver ℕ} {frame : Frame} {now : ℕ} {handled : Handled ℕ}
    (hs : Reachable (receiverStep sampleHost oneChunk) Unrestricted {} s) (hkey : frame.key = firstKey)
    (hhandled : receivedAt s.receiver frame now = handled) (hstatus : handled.status = some .ok)
    (hlives : Lives sampleHost oneChunk firstKey handled.receiver r) : AnsweredOnce sampleHost oneChunk frame r := by
  subst hhandled
  exact ⟨s, now, now, .returns, hs, ⟨.ok, hstatus, rfl⟩, hkey ▸ hlives⟩

theorem reachable_receivedAt {frame : Frame} {now : ℕ} {handled : Handled ℕ}
    (hs : Reachable (receiverStep sampleHost oneChunk) Unrestricted {} s) (hhandled : receivedAt s.receiver frame now = handled) :
    ∃ log, Reachable (receiverStep sampleHost oneChunk) Unrestricted {} ⟨handled.receiver, log⟩ := by
  subst hhandled
  exact ⟨_, .next (a := .receive frame now now .returns) hs trivial rfl⟩

/-- A BEGIN is received again after the commit. -/
theorem retransmission_harmless_begin : ∃ r, r.committed.keys = [firstKey] ∧
    Harmless sampleHost oneChunk r (openFrame firstKey) 3 3 .returns := by
  obtain ⟨opened, chunked, closed, -, hopen, hchunk, hclose, -, hok, hopened, -, hchunked, hgone, hclosed, -⟩ := closed_run
  have hlives : Lives sampleHost oneChunk firstKey opened.receiver chunked.receiver :=
    lives_receivedAt (.start (alive_of_activity hopened)) (fresh_of_activity hopened (by decide)) rfl hchunk (alive_of_activity hchunked)
  have hcommitted : Lives sampleHost oneChunk firstKey opened.receiver closed.receiver :=
    lives_receivedAt hlives (fresh_of_activity hchunked (by decide)) rfl hclose (alive_of_committed hclosed)
  have hanswered := answered_receivedAt .start rfl hopen hok hcommitted
  refine ⟨closed.receiver, hclosed, ?_⟩
  exact (retransmission_harmless_iff sampleHost oneChunk (openFrame firstKey) closed.receiver 3 3 .returns hanswered
    (fresh_of_inactive hgone)).mpr fun h => nomatch h

/-- A chunk is received again after the commit, and refused. -/
theorem late_chunk_refused :
    ¬∀ (host : Host ℕ) (config : ReceiverConfig) (frame : Frame) (r : Receiver ℕ) (expireAt now : ℕ) (outcome : CallbackOutcome),
      AnsweredOnce host config frame r → Fresh host r frame.key expireAt → Harmless host config r frame expireAt now outcome := by
  intro h
  obtain ⟨opened, chunked, closed, late, hopen, hchunk, hclose, hlate, -, -, hok, hchunked, hgone, hclosed, hrefused⟩ := closed_run
  obtain ⟨log, hrun⟩ := reachable_receivedAt .start hopen
  have hlives : Lives sampleHost oneChunk firstKey chunked.receiver closed.receiver :=
    lives_receivedAt (.start (alive_of_activity hchunked)) (fresh_of_activity hchunked (by decide)) rfl hclose (alive_of_committed hclosed)
  have hanswered := answered_receivedAt hrun rfl hchunk hok hlives
  have hharmless := h sampleHost oneChunk firstChunk closed.receiver 3 3 .returns hanswered (fresh_of_inactive hgone)
  have hrejected : (receivedAt closed.receiver firstChunk 3).status = some .rejected := by
    rw [hlate, hrefused]
  exact not_good_rejected hrejected hharmless.good

end SparkRing.Replication
