import Mathlib.Algebra.Order.BigOperators.Group.Finset
import SparkRing.ReplicaLink

/-!
# Sending within the credit

A credit is what the receiver had left when it made it, and the sender takes it as it
is. Where the receiver had processed every chunk emitted so far, the chunks that were
paid from the credit since, with what was staged, fit its bounds, and no chunk is
aborted. A credit made while a chunk was under way gives that chunk's part a second
time, and the receiver is overrun.
-/

namespace SparkRing.Replication

open OrderedDict TransitionSystem
open Option (getD_some map_eq_some_iff map_some some.inj)
open List (map_cons mem_append mem_append_left mem_cons mem_cons_self mem_map mem_singleton mem_toFinset pairwise_cons sum_cons)

variable {τ : Type} {host : Host τ} {senderConfig : SenderConfig} {config : ReceiverConfig} {r : Receiver τ} {l l' : Link τ}
  {frame : Frame} {now : τ} {outcome : CallbackOutcome} {handled : Handled τ} {chunks granted : Finset PlacedChunk} {measure : Bytes → ℕ}

/-- A chunk at its place in a transaction. -/
abbrev PlacedChunk := Key × ℕ × Bytes

def Frame.chunk (frame : Frame) : Option PlacedChunk :=
  match frame.body with
  | .putChunk index _ payload => some (frame.key, index, payload)
  | _ => none

theorem isPutChunk_iff : frame.isPutChunk = true ↔ ∃ chunk, frame.chunk = some chunk := by
  unfold Frame.isPutChunk Frame.chunk
  cases frame.body <;> simp

theorem payload_of_chunk {chunk : PlacedChunk} (h : frame.chunk = some chunk) : frame.payload = chunk.2.2 := by
  unfold Frame.chunk at h
  split at h
  next index digest payload hbody =>
    cases h
    rw [Frame.payload, hbody]
  next => cases h

def Receiver.staged (r : Receiver τ) : List PlacedChunk :=
  r.active.items.flatMap fun item =>
    item.2.chunks.items.filterMap fun place => place.2.2.map fun payload => (item.1, place.1, payload)

theorem mem_staged {key : Key} {index : ℕ} {payload : Bytes} : (key, index, payload) ∈ r.staged ↔
    ∃ transaction digest, r.active.get? key = some transaction ∧ transaction.chunks.get? index = some (digest, some payload) := by
  simp only [Receiver.staged, List.mem_flatMap, List.mem_filterMap, map_eq_some_iff, Prod.mk.injEq, Prod.exists,
    Dict.get?_eq_some_iff]
  constructor
  · rintro ⟨_, transaction, hactive, _, digest, _, hchunk, _, rfl, rfl, rfl, rfl⟩
    exact ⟨transaction, digest, hactive, hchunk⟩
  · rintro ⟨transaction, digest, hactive, hchunk⟩
    exact ⟨key, transaction, hactive, index, digest, some payload, hchunk, payload, rfl, rfl, rfl, rfl⟩

theorem nodup_staged : r.staged.Nodup := by
  refine List.nodup_flatMap.mpr ⟨fun item _ => ?_, ?_⟩
  · -- two chunks of a transaction have different places
    refine List.Nodup.of_map (fun chunk => chunk.2.1) (List.Nodup.sublist ?_ item.2.chunks.nodup)
    generalize item.2.chunks.items = places
    induction places with
    | nil => exact .slnil
    | cons place places ih =>
      obtain ⟨index, digest, payload⟩ := place
      cases payload with
      | none => exact ih.cons index
      | some payload => exact ih.cons_cons index
  · have hkeys : r.active.items.Pairwise fun item other => item.1 ≠ other.1 := List.pairwise_map.mp r.active.nodup
    refine hkeys.imp fun {item other} hne => ?_
    intro chunk hitem hother
    obtain ⟨place, -, hplace⟩ := List.mem_filterMap.mp hitem
    obtain ⟨other, -, hother⟩ := List.mem_filterMap.mp hother
    obtain ⟨payload, -, rfl⟩ := map_eq_some_iff.mp hplace
    obtain ⟨found, -, hfound⟩ := map_eq_some_iff.mp hother
    exact hne (congrArg Prod.fst hfound).symm

/-- What a receiver stages, each payload measured. -/
def Receiver.load (r : Receiver τ) (measure : Bytes → ℕ) : ℕ :=
  r.active.total fun transaction => transaction.chunks.total fun chunk => (chunk.2.map measure).getD 0

theorem stagedBytes_eq : r.stagedBytes = r.load List.length := rfl

theorem stagedChunks_eq : r.stagedChunks = r.load fun _ => 1 := by
  have hone : chunkFrames = fun chunk : String × Option Bytes => (chunk.2.map fun _ => 1).getD 0 := by
    funext chunk
    unfold chunkFrames
    cases chunk.2 with
    | none | some => rfl
  rw [Receiver.load, ← hone]
  rfl

theorem sum_staged : ∑ chunk ∈ r.staged.toFinset, measure chunk.2.2 = r.load measure := by
  rw [List.sum_toFinset _ nodup_staged, Receiver.staged, Receiver.load, Dict.total, List.map_flatMap, List.flatMap_def,
    List.sum_flatten, List.map_map]
  congr 1
  refine List.map_congr_left fun item _ => ?_
  rw [Function.comp, Dict.total]
  generalize item.2.chunks.items = places
  induction places with
  | nil => rfl
  | cons place places ih =>
    obtain ⟨index, digest, payload⟩ := place
    cases payload with
    | none =>
      rw [map_cons, sum_cons, ← ih]
      exact (Nat.zero_add _).symm
    | some payload =>
      rw [map_cons, sum_cons, ← ih]
      rfl

/-- A receiver that stages only chunks of a set stages no more than the set. -/
theorem load_le (h : r.staged.toFinset ⊆ chunks) (measure : Bytes → ℕ) :
    r.load measure ≤ ∑ chunk ∈ chunks, measure chunk.2.2 := sum_staged.symm.trans_le (Finset.sum_le_sum_of_subset h)

theorem Effect.staged_or (hkeyed : Keyed r) (he : Effect host config r frame now outcome handled) :
    ∀ chunk ∈ handled.receiver.staged, chunk ∈ r.staged ∨ frame.chunk = some chunk := by
  rintro ⟨key, index, payload⟩ hmem
  obtain ⟨found, digest, hfound, hchunk⟩ := mem_staged.mp hmem
  have hold : r.active.get? key = some found → (key, index, payload) ∈ r.staged :=
    fun hactive => mem_staged.mpr ⟨found, digest, hactive, hchunk⟩
  cases he with
  | still | interrupted => exact .inl (hold hfound)
  | dropped | overrun | published =>
    exact .inl (hold (Dict.get?_erase_eq_some.mp hfound).2)
  | touched hactive =>
    left
    rcases Dict.get?_set_eq_some.mp hfound with ⟨rfl, rfl⟩ | ⟨-, hother⟩
    · rw [hkeyed _ _ hactive]
      exact mem_staged.mpr ⟨_, digest, hactive, hchunk⟩
    · exact hold hother
  | opened =>
    left
    rcases Dict.get?_set_eq_some.mp hfound with ⟨rfl, rfl⟩ | ⟨-, hother⟩
    · cases hchunk
    · exact hold (get?_of_supersede hother)
  | staged hstages hbounds houtcome =>
    rcases Dict.get?_set_eq_some.mp hfound with ⟨rfl, rfl⟩ | ⟨-, hother⟩
    · have hkey := hkeyed _ _ hstages.active
      rcases Dict.get?_set_eq_some.mp hchunk with ⟨rfl, hput⟩ | ⟨-, hbefore⟩
      · right
        rw [Frame.chunk, hstages.body, Option.some.injEq, Prod.mk.injEq, Prod.mk.injEq]
        refine ⟨hkey.symm, rfl, ?_⟩
        rw [Prod.mk.injEq, stagedPayload] at hput
        split at hput
        · cases hput.2
        · exact (some.inj hput.2).symm
      · left
        exact mem_staged.mpr ⟨_, digest, hkey ▸ hstages.active, hbefore⟩
    · exact .inl (hold hother)

/-- A frame is aborted for a bound only where its chunk, which is new, exceeds it. -/
theorem Effect.exceeds_of_overrun (he : Effect host config r frame now outcome handled) (h : handled.overrun = true) :
    ∃ chunk, frame.chunk = some chunk ∧ chunk ∉ r.staged ∧ r.exceeds config (stagedPayload config chunk.2.2) = true := by
  cases he with
  | @overrun transaction index digest payload fingerprint entered hstages hexceeds houtcome =>
    refine ⟨(frame.key, index, payload), ?_, fun hmem => ?_, hexceeds⟩
    · rw [Frame.chunk, hstages.body]
    obtain ⟨found, digest, hfound, hchunk⟩ := mem_staged.mp hmem
    rw [hstages.active, Option.some.injEq] at hfound
    rw [← hfound, hstages.free] at hchunk
    cases hchunk
  | still | interrupted | dropped | published | touched | opened | staged => cases h

/-- A frame is answered with the status and a credit of what is left, or not at all. -/
theorem receive_responses (host : Host τ) (now : τ)
    (outcome : CallbackOutcome) : ((r.expireInactive host expireAt).handle host config frame now outcome).status = none ∧
        (r.receive host config frame expireAt now outcome).2 = [] ∨ ∃ status first, (r.receive host config frame expireAt now outcome).2 =
        [⟨frame.key, first, .ack frame.sequence status⟩, ⟨frame.key, first + 1,
          .credit (config.maxStagedBytes - (r.receive host config frame expireAt now outcome).1.receiver.stagedBytes)
            (config.maxStagedChunks - (r.receive host config frame expireAt now outcome).1.receiver.stagedChunks)⟩] := by
  unfold Receiver.receive
  dsimp only
  split
  next hstatus => exact .inl ⟨hstatus, rfl⟩
  next status hstatus => exact .inr ⟨status, _, rfl⟩

/-- A chunk is always answered where there is no callback for chunks. -/
theorem status_putChunk (hmode : config.onChunk = false) (hput : frame.isPutChunk = true) {encoded : Bytes}
    (hencoded : frame.encode = .ok encoded) : (r.handle host config frame now outcome).status ≠ none := by
  obtain ⟨index, digest, payload, hbody⟩ : ∃ index digest payload, frame.body = .putChunk index digest payload := by
    unfold Frame.isPutChunk at hput
    split at hput
    next index digest payload hbody => exact ⟨index, digest, payload, hbody⟩
    next => cases hput
  have hstage : ∀ transaction fingerprint staged entered,
      (r.stage config transaction frame.sequence fingerprint index digest staged now entered).status ≠ none := by
    intro transaction fingerprint staged entered
    unfold Receiver.stage
    split <;> exact nofun
  simp only [Receiver.handle, hbody]
  split
  case isFalse => exact nofun
  case isTrue =>
    simp only [Receiver.putChunk, hencoded, hmode, Bool.false_eq_true, if_false]
    split
    · exact nofun
    split
    · split <;> exact nofun
    split
    · exact nofun
    split
    · split <;> exact nofun
    split
    · exact nofun
    · exact hstage _ _ _ _

/-- What a frame under way was paid for. -/
def Sent.paid (measure : Bytes → ℕ) (sent : Sent) : ℕ :=
  if sent.fresh then (sent.frame.chunk.map fun chunk => measure chunk.2.2).getD 0 else 0

/-- The chunks that were offered and not processed yet. -/
def Link.underWay (l : Link τ) (measure : Bytes → ℕ) : ℕ := (l.forward.map (Sent.paid measure)).sum

/-- An acknowledgement. -/
def Frame.isAck (frame : Frame) : Bool :=
  match frame.body with
  | .ack .. => true
  | _ => false

/-- The numbers say what happened before what. -/
structure Numbered (l : Link τ) : Prop where
  /-- Frames are under way in order. -/
  forward : l.forward.Pairwise fun sent later => sent.number < later.number
  /-- They were emitted. -/
  emitted : ∀ sent ∈ l.forward, sent.number ≤ l.emitted
  chunk : ∀ sent ∈ l.forward, sent.frame.isPutChunk = true → sent.number ≤ l.lastChunk
  /-- An acknowledgement is the first answer to its frame. -/
  reverse : l.reverse.Pairwise fun returned later => later.frame.isAck = true → returned.number < later.number
  /-- Frames under way are not answered. -/
  unanswered : ∀ returned ∈ l.reverse, ∀ sent ∈ l.forward, returned.number < sent.number
  /-- Answered frames were emitted. -/
  answered : ∀ returned ∈ l.reverse, returned.number ≤ l.emitted

/-- Frames in flight are what the sender says they are, and chunks among them will be
acknowledged. -/
structure Wired (l : Link τ) : Prop where
  /-- Frames under way were encoded. -/
  encoded : ∀ sent ∈ l.forward, ∃ encoded, sent.frame.encode = .ok encoded
  /-- Frames in flight are in their places, encoded. -/
  inflight : ∀ place wire, l.sender.inflight.get? place = some wire →
    place = (wire.frame.key, wire.frame.sequence) ∧ wire.frame.encode = .ok wire.encoded
  /-- A chunk in flight is under way, or its acknowledgement is. -/
  acknowledged : ∀ place wire, l.sender.inflight.get? place = some wire → wire.frame.isPutChunk = true →
    (∃ sent ∈ l.forward, sent.frame = wire.frame) ∨
      ∃ returned ∈ l.reverse, ∃ status, returned.frame.key = wire.frame.key ∧
        returned.frame.body = .ack wire.frame.sequence status ∧ returned.number ≤ l.lastChunk

/-- The chunks the receiver can come to stage were granted: their sum, with what is paid and
under way and the credit left, fits the bounds. -/
structure Granted (config : ReceiverConfig) (l : Link τ) (chunks : Finset PlacedChunk) : Prop where
  /-- What is staged was granted. -/
  staged : l.receiver.staged.toFinset ⊆ chunks
  bytes : ∑ chunk ∈ chunks, chunk.2.2.length + l.underWay List.length + l.sender.availableBytes ≤ config.maxStagedBytes
  frames : ∑ _chunk ∈ chunks, 1 + l.underWay (fun _ => 1) + l.sender.availableFrames ≤ config.maxStagedChunks
  /-- A chunk in flight was granted or is under way. -/
  inflight : ∀ place wire chunk, l.sender.inflight.get? place = some wire → wire.frame.chunk = some chunk →
    chunk ∈ chunks ∨ ∃ sent ∈ l.forward, sent.fresh = true ∧ sent.frame.chunk = some chunk
  /-- A chunk under way was granted or is under way before, paid for. -/
  forward : ∀ sent ∈ l.forward, ∀ chunk, sent.frame.chunk = some chunk →
    chunk ∈ chunks ∨ ∃ before ∈ l.forward, before.fresh = true ∧ before.number ≤ sent.number ∧ before.frame.chunk = some chunk

/-- A credit under way is what is left, unless a chunk was emitted after the frame it
answers. -/
def Truthful (config : ReceiverConfig) (l : Link τ) : Prop :=
  ∀ returned ∈ l.reverse, ∀ availableBytes availableFrames, returned.frame.body = .credit availableBytes availableFrames →
    returned.number < l.lastChunk ∨
      l.receiver.stagedBytes + availableBytes ≤ config.maxStagedBytes ∧
        l.receiver.stagedChunks + availableFrames ≤ config.maxStagedChunks

/-- What holds between two steps. -/
structure LinkInv (host : Host τ) (config : ReceiverConfig) (l : Link τ) : Prop where
  /-- The receiver keeps its invariant. -/
  receiver : Inv host config l.receiver
  /-- The numbers are in order. -/
  numbered : Numbered l
  /-- Chunks in flight will be acknowledged. -/
  wired : Wired l
  /-- What can be staged was granted. -/
  granted : ∃ chunks, Granted config l chunks
  /-- Credits are what is left. -/
  truthful : Truthful config l
  /-- No chunk was aborted for a bound. -/
  overran : l.overran = false

theorem Numbered.emit (h : Numbered l) (sender : Sender) (frame : Frame) (fresh : Bool) : Numbered (l.emit sender frame fresh) := by
  constructor
  case forward =>
    refine List.pairwise_append.mpr ⟨h.forward, List.pairwise_singleton .., fun sent hsent last hlast => ?_⟩
    cases mem_singleton.mp hlast
    exact Nat.lt_succ_of_le (h.emitted sent hsent)
  case emitted =>
    intro sent hsent
    rcases mem_append.mp hsent with hsent | hlast
    · exact Nat.le_succ_of_le (h.emitted sent hsent)
    · cases mem_singleton.mp hlast
      exact le_rfl
  case chunk =>
    intro sent hsent hput
    rw [Link.emit]
    rcases mem_append.mp hsent with hsent | hlast
    · split
      · exact Nat.le_succ_of_le (h.emitted sent hsent)
      · exact h.chunk sent hsent hput
    · cases mem_singleton.mp hlast
      exact (if_pos hput).ge
  case reverse => exact h.reverse
  case unanswered =>
    intro returned hreturned sent hsent
    rcases mem_append.mp hsent with hsent | hlast
    · exact h.unanswered returned hreturned sent hsent
    · cases mem_singleton.mp hlast
      exact Nat.lt_succ_of_le (h.answered returned hreturned)
  case answered => exact fun returned hreturned => Nat.le_succ_of_le (h.answered returned hreturned)

/-- A sender that keeps its credit and at most forgets frames in flight. -/
theorem LinkInv.forgets {sender : Sender} (h : LinkInv host config l) (hforgets : l.sender.Forgets sender) :
    LinkInv host config { l with sender := sender } := { h with
  numbered := ⟨h.numbered.forward, h.numbered.emitted, h.numbered.chunk, h.numbered.reverse, h.numbered.unanswered,
    h.numbered.answered⟩
  wired := by
    refine ⟨h.wired.encoded, fun place wire hwire => ?_, fun place wire hwire => ?_⟩
    · exact h.wired.inflight place wire (hforgets.inflight place wire hwire)
    · exact h.wired.acknowledged place wire (hforgets.inflight place wire hwire)
  granted := by
    obtain ⟨chunks, hchunks⟩ := h.granted
    refine ⟨chunks, hchunks.staged, ?_, ?_, fun place wire chunk hwire => ?_, hchunks.forward⟩
    · exact hforgets.availableBytes ▸ hchunks.bytes
    · exact hforgets.availableFrames ▸ hchunks.frames
    · exact hchunks.inflight place wire chunk (hforgets.inflight place wire hwire) }

theorem underWay_emit {sender : Sender} {fresh : Bool} :
    (l.emit sender frame fresh).underWay measure = l.underWay measure + Sent.paid measure ⟨frame, l.emitted + 1, fresh⟩ := by
  rw [Link.underWay, Link.emit, List.map_append, List.sum_append, List.map_singleton, List.sum_singleton, Link.underWay]

theorem Truthful.emit (h : Truthful config l) (hnumbered : Numbered l) (sender : Sender) (frame : Frame) (fresh : Bool) :
    Truthful config (l.emit sender frame fresh) := by
  intro returned hreturned availableBytes availableFrames hbody
  rcases h returned hreturned availableBytes availableFrames hbody with hlt | hleft
  · left
    rw [Link.emit]
    split
    · exact Nat.lt_succ_of_le (hnumbered.answered returned hreturned)
    · exact hlt
  · exact .inr hleft

variable {wire : Wire}

/-- A chunk is paid from the credit when it is emitted. -/
theorem spend_paid {s : Sender} (number : ℕ)
    (hcredit : wire.frame.isPutChunk = true → 1 ≤ s.availableFrames ∧ wire.frame.payload.length ≤ s.availableBytes) :
    Sent.paid List.length ⟨wire.frame, number, true⟩ + (s.spend wire).availableBytes = s.availableBytes ∧
      Sent.paid (fun _ => 1) ⟨wire.frame, number, true⟩ + (s.spend wire).availableFrames = s.availableFrames := by
  unfold Sent.paid Sender.spend
  cases hchunk : wire.frame.chunk with
  | some chunk =>
    have hput := isPutChunk_iff.mpr ⟨chunk, hchunk⟩
    obtain ⟨hframes, hbytes⟩ := hcredit hput
    have hpayload := payload_of_chunk hchunk
    simp only [hput, if_true, map_some, getD_some, ← hpayload]
    omega
  | none =>
    have hput : ¬wire.frame.isPutChunk = true := fun hput => by
      obtain ⟨chunk, hsome⟩ := isPutChunk_iff.mp hput
      rw [hchunk] at hsome
      cases hsome
    rw [if_neg hput, if_neg hput]
    exact ⟨Nat.zero_add _, Nat.zero_add _⟩

/-- A frame is emitted: a new one within the credit, or one in flight again. -/
theorem LinkInv.emit {sender : Sender} {fresh : Bool} (h : LinkInv host config l) (hencoded : wire.frame.encode = .ok wire.encoded)
    (hinflight : ∀ place other, sender.inflight.get? place = some other → l.sender.inflight.get? place = some other ∨
      fresh = true ∧ place = (wire.frame.key, wire.frame.sequence) ∧ other = wire)
    (hpaid : Sent.paid List.length ⟨wire.frame, l.emitted + 1, fresh⟩ + sender.availableBytes = l.sender.availableBytes ∧
      Sent.paid (fun _ => 1) ⟨wire.frame, l.emitted + 1, fresh⟩ + sender.availableFrames = l.sender.availableFrames)
    (hknown : fresh = true ∨ ∃ place, l.sender.inflight.get? place = some wire) :
    LinkInv host config (l.emit sender wire.frame fresh) := { h with
  numbered := h.numbered.emit _ _ _
  wired := by
    refine ⟨fun sent hsent => ?_, fun place other hother => ?_, fun place other hother hput => ?_⟩
    · rcases mem_append.mp hsent with hsent | hlast
      · exact h.wired.encoded sent hsent
      · cases mem_singleton.mp hlast
        exact ⟨wire.encoded, hencoded⟩
    · rcases hinflight place other hother with hold | ⟨-, rfl, rfl⟩
      · exact h.wired.inflight place other hold
      · exact ⟨rfl, hencoded⟩
    rcases hinflight place other hother with hold | ⟨-, -, rfl⟩
    · rcases h.wired.acknowledged place other hold hput with ⟨sent, hsent, hframe⟩ | ⟨returned, hreturned, status, hkey, hbody, hle⟩
      · exact .inl ⟨sent, mem_append_left _ hsent, hframe⟩
      refine .inr ⟨returned, hreturned, status, hkey, hbody, ?_⟩
      rw [Link.emit]
      split
      · exact Nat.le_succ_of_le (h.numbered.answered returned hreturned)
      · exact hle
    · exact .inl ⟨_, List.mem_append_right _ (List.mem_singleton_self _), rfl⟩
  granted := by
    obtain ⟨chunks, hchunks⟩ := h.granted
    refine ⟨chunks, hchunks.staged, ?_, ?_, fun place other chunk hother hchunk => ?_, fun sent hsent chunk hchunk => ?_⟩
    · rw [underWay_emit, ← Nat.add_assoc, Nat.add_assoc]
      exact hpaid.1 ▸ hchunks.bytes
    · rw [underWay_emit, ← Nat.add_assoc, Nat.add_assoc]
      exact hpaid.2 ▸ hchunks.frames
    · rcases hinflight place other hother with hold | ⟨hfresh, -, rfl⟩
      · rcases hchunks.inflight place other chunk hold hchunk with hmem | ⟨sent, hsent, hfresh⟩
        · exact .inl hmem
        · exact .inr ⟨sent, mem_append_left _ hsent, hfresh⟩
      · exact .inr ⟨_, List.mem_append_right _ (List.mem_singleton_self _), hfresh, hchunk⟩
    rcases mem_append.mp hsent with hsent | hlast
    · rcases hchunks.forward sent hsent chunk hchunk with hmem | ⟨before, hbefore, hfresh⟩
      · exact .inl hmem
      · exact .inr ⟨before, mem_append_left _ hbefore, hfresh⟩
    cases mem_singleton.mp hlast
    rcases hknown with hfresh | ⟨place, hwire⟩
    · exact .inr ⟨_, List.mem_append_right _ (List.mem_singleton_self _), hfresh, le_rfl, hchunk⟩
    rcases hchunks.inflight place wire chunk hwire hchunk with hmem | ⟨before, hbefore, hfresh, hsame⟩
    · exact .inl hmem
    · exact .inr ⟨before, mem_append_left _ hbefore, hfresh, Nat.le_succ_of_le (h.numbered.emitted before hbefore), hsame⟩
  truthful := h.truthful.emit h.numbered _ _ _ }

/-- An offer keeps the invariant. -/
theorem LinkInv.offer (h : LinkInv host config l) (senderConfig : SenderConfig) (frame : Frame) :
    LinkInv host config (l.offer senderConfig frame) := by
  have hoffers := l.sender.offers senderConfig frame
  unfold Link.offer
  generalize l.sender.offer senderConfig frame = result at hoffers
  obtain ⟨sender, offered⟩ := result
  cases hoffers with
  | nothing hforgets hnothing =>
    cases offered with
    | emitted wire => exact absurd rfl (hnothing wire)
    | withheld | raised => exact h.forgets hforgets
  | again hwire =>
    have hmem : ¬(frame.key, frame.sequence) ∉ l.sender.inflight.keys := not_not.mpr (Dict.mem_keys_iff.mpr ⟨_, hwire⟩)
    rw [decide_eq_false hmem]
    exact h.emit (h.wired.inflight _ _ hwire).2 (fun _ _ => .inl) ⟨Nat.zero_add _, Nat.zero_add _⟩ (.inr ⟨_, hwire⟩)
  | fresh hencoded hnone hcredit =>
    rw [decide_eq_true (Dict.get?_eq_none_iff.mp hnone)]
    refine h.emit hencoded (fun place other hother => ?_) (spend_paid _ hcredit) (.inl rfl)
    rcases Dict.get?_set_eq_some.mp hother with ⟨hplace, hsame⟩ | ⟨-, hold⟩
    · exact .inr ⟨rfl, hplace, hsame⟩
    · exact .inl hold

section Process

variable {sent : Sent} {forward : List Sent} {expireAt : τ}

/-- The link after a frame was processed. -/
abbrev Link.processed (l : Link τ) (host : Host τ) (config : ReceiverConfig) (sent : Sent) (forward : List Sent) (expireAt now : τ)
    (outcome : CallbackOutcome) : Link τ :=
  { l with forward := forward }.process host config sent expireAt now outcome

theorem Inv.staged_receive (h : Inv host config r) (frame : Frame) (expireAt now : τ) (outcome : CallbackOutcome) :
    ∀ chunk ∈ (r.receive host config frame expireAt now outcome).1.receiver.staged, chunk ∈ r.staged ∨ frame.chunk = some chunk := by
  intro chunk hmem
  rw [Receiver.staged, receive_active] at hmem
  rcases (h.handle_effect frame expireAt now outcome).staged_or (h.expireInactive expireAt).keyed chunk hmem with hold | hnew
  · left
    obtain ⟨key, index, payload⟩ := chunk
    obtain ⟨transaction, digest, hactive, hchunk⟩ := mem_staged.mp hold
    exact mem_staged.mpr ⟨transaction, digest, (Dict.get?_filter_eq_some.mp hactive).1, hchunk⟩
  · exact .inr hnew

/-- A frame that carries no chunk stages nothing more. -/
theorem Inv.load_receive (h : Inv host config r) (hnone : frame.chunk = none) (expireAt now : τ) (outcome : CallbackOutcome)
    (measure : Bytes → ℕ) : (r.receive host config frame expireAt now outcome).1.receiver.load measure ≤ r.load measure := by
  refine (load_le (fun chunk hmem => ?_) measure).trans_eq sum_staged
  rcases h.staged_receive frame expireAt now outcome chunk (mem_toFinset.mp hmem) with hold | hnew
  · exact mem_toFinset.mpr hold
  · rw [hnone] at hnew
    cases hnew

theorem Numbered.process (h : Numbered l) (hforward : l.forward = sent :: forward) :
    Numbered (l.processed host config sent forward expireAt now outcome) := by
  have hlater := pairwise_cons.mp (hforward ▸ h.forward)
  have hmem : ∀ later ∈ forward, later ∈ l.forward := fun later hin => hforward ▸ List.mem_cons_of_mem _ hin
  have hsent : sent ∈ l.forward := hforward ▸ mem_cons_self
  have hnumber : ∀ returned ∈ (l.receiver.receive host config sent.frame expireAt now outcome).2.map fun frame =>
      (⟨frame, sent.number⟩ : Returned), returned.number = sent.number := by
    intro returned hin
    obtain ⟨frame, -, rfl⟩ := mem_map.mp hin
    rfl
  constructor
  case forward => exact hlater.2
  case emitted => exact fun later hin => h.emitted later (hmem later hin)
  case chunk => exact fun later hin => h.chunk later (hmem later hin)
  case reverse =>
    refine List.pairwise_append.mpr ⟨h.reverse, ?_, fun returned hin answer hanswer _ => ?_⟩
    · rcases receive_responses host now outcome with ⟨-, hnone⟩ | ⟨status, first, hboth⟩
      · rw [show _ = _ from hnone]
        exact .nil
      rw [show _ = _ from hboth]
      refine List.pairwise_pair.mpr fun hack => ?_
      cases hack
    · rw [hnumber answer hanswer]
      exact h.unanswered returned hin sent hsent
  case unanswered =>
    intro returned hin later hlast
    rcases mem_append.mp hin with hold | hnew
    · exact h.unanswered returned hold later (hmem later hlast)
    · rw [hnumber returned hnew]
      exact hlater.1 later hlast
  case answered =>
    intro returned hin
    rcases mem_append.mp hin with hold | hnew
    · exact h.answered returned hold
    · rw [hnumber returned hnew]
      exact h.emitted sent hsent

theorem Wired.process (h : Wired l) (hnumbered : Numbered l) (hmode : config.onChunk = false)
    (hforward : l.forward = sent :: forward) : Wired (l.processed host config sent forward expireAt now outcome) := by
  have hsent : sent ∈ l.forward := hforward ▸ mem_cons_self
  refine ⟨fun later hin => h.encoded later (hforward ▸ List.mem_cons_of_mem _ hin), h.inflight, fun place wire hwire hput => ?_⟩
  rcases h.acknowledged place wire hwire hput with ⟨later, hin, hframe⟩ | ⟨returned, hin, hack⟩
  · rcases mem_cons.mp (hforward ▸ hin) with rfl | hin
    · -- the chunk was processed, so it is acknowledged
      right
      obtain ⟨encoded, hencoded⟩ := h.encoded later hsent
      rcases receive_responses host now outcome with ⟨hnone, -⟩ | ⟨status, first, hboth⟩
      · exact absurd hnone (status_putChunk hmode (hframe ▸ hput) hencoded)
      refine ⟨⟨⟨later.frame.key, first, .ack later.frame.sequence status⟩, later.number⟩, ?_, status, hframe ▸ rfl, hframe ▸ rfl,
        hnumbered.chunk later hsent (hframe ▸ hput)⟩
      refine List.mem_append_right _ (mem_map.mpr ⟨_, ?_, rfl⟩)
      rw [show _ = _ from hboth]
      exact mem_cons_self
    · exact .inl ⟨later, hin, hframe⟩
  · exact .inr ⟨returned, mem_append_left _ hin, hack⟩

theorem Truthful.process (h : Truthful config l) (hinv : Inv host config l.receiver) (hnumbered : Numbered l)
    (hforward : l.forward = sent :: forward) : Truthful config (l.processed host config sent forward expireAt now outcome) := by
  have hsent : sent ∈ l.forward := hforward ▸ mem_cons_self
  intro returned hin availableBytes availableFrames hbody
  rcases mem_append.mp hin with hold | hnew
  · cases hchunk : sent.frame.chunk with
    | some chunk =>
      left
      have hput := isPutChunk_iff.mpr ⟨chunk, hchunk⟩
      exact (hnumbered.unanswered returned hold sent hsent).trans_le (hnumbered.chunk sent hsent hput)
    | none =>
      rcases h returned hold availableBytes availableFrames hbody with hlt | ⟨hbytes, hframes⟩
      · exact .inl hlt
      right
      have hless := hinv.load_receive hchunk expireAt now outcome
      rw [stagedChunks_eq] at hframes ⊢
      exact ⟨(Nat.add_le_add_right (hless _) _).trans hbytes, (Nat.add_le_add_right (hless _) _).trans hframes⟩
  · right
    have hafter := hinv.receive sent.frame expireAt now outcome
    obtain ⟨response, hresponse, rfl⟩ := mem_map.mp hnew
    rcases receive_responses host now outcome with ⟨-, hnone⟩ | ⟨status, first, hboth⟩
    · rw [show _ = _ from hnone] at hresponse
      cases hresponse
    rw [show _ = _ from hboth] at hresponse
    rcases mem_cons.mp hresponse with rfl | hresponse
    · cases hbody
    cases mem_singleton.mp hresponse
    cases hbody
    exact ⟨(Nat.add_sub_of_le hafter.stagedBytes).le, (Nat.add_sub_of_le hafter.stagedChunks).le⟩

/-- The next chunk is granted what was paid for it, where it was not granted already. -/
theorem Granted.next (h : Granted config l chunks) (hnumbered : Numbered l)
    (hforward : l.forward = sent :: forward) : ∃ granted, chunks ⊆ granted ∧ (∀ chunk, sent.frame.chunk = some chunk → chunk ∈ granted) ∧
      ∀ measure : Bytes → ℕ, ∑ chunk ∈ granted, measure chunk.2.2 + (forward.map (Sent.paid measure)).sum ≤
        ∑ chunk ∈ chunks, measure chunk.2.2 + l.underWay measure := by
  have hsplit : ∀ measure, l.underWay measure = sent.paid measure + (forward.map (Sent.paid measure)).sum := by
    intro measure
    rw [Link.underWay, hforward, map_cons, sum_cons]
  cases hchunk : sent.frame.chunk with
  | none =>
    refine ⟨chunks, Finset.Subset.refl _, nofun, fun measure => ?_⟩
    rw [hsplit]
    omega
  | some chunk =>
    by_cases hmem : chunk ∈ chunks
    · refine ⟨chunks, Finset.Subset.refl _, fun other hother => some.inj hother ▸ hmem, fun measure => ?_⟩
      rw [hsplit]
      omega
    refine ⟨insert chunk chunks, Finset.subset_insert .., fun other hother => some.inj hother ▸ Finset.mem_insert_self .., ?_⟩
    have hfresh : sent.fresh = true := by
      rcases h.forward sent (hforward ▸ mem_cons_self) chunk hchunk with hin | ⟨before, hbefore, hfresh, hle, -⟩
      · exact absurd hin hmem
      -- nothing is under way before the next frame
      rcases mem_cons.mp (hforward ▸ hbefore) with rfl | hlater
      · exact hfresh
      · exact absurd ((pairwise_cons.mp (hforward ▸ hnumbered.forward)).1 before hlater) (Nat.not_lt.mpr hle)
    intro measure
    rw [hsplit, Finset.sum_insert hmem, Sent.paid, if_pos hfresh, hchunk, map_some, getD_some]
    omega

theorem Granted.process (h : Granted config l chunks) (hinv : Inv host config l.receiver)
    (hforward : l.forward = sent :: forward) (hmore : chunks ⊆ granted) (hchunk : ∀ chunk, sent.frame.chunk = some chunk → chunk ∈ granted)
    (hsum : ∀ measure : Bytes → ℕ, ∑ chunk ∈ granted, measure chunk.2.2 + (forward.map (Sent.paid measure)).sum ≤
      ∑ chunk ∈ chunks, measure chunk.2.2 + l.underWay measure) :
    Granted config (l.processed host config sent forward expireAt now outcome) granted := by
  constructor
  case staged =>
    intro chunk hmem
    rcases hinv.staged_receive sent.frame expireAt now outcome chunk (mem_toFinset.mp hmem) with hold | hnew
    · exact hmore (h.staged (mem_toFinset.mpr hold))
    · exact hchunk chunk hnew
  case bytes => exact (Nat.add_le_add_right (hsum List.length) _).trans h.bytes
  case frames => exact (Nat.add_le_add_right (hsum fun _ => 1) _).trans h.frames
  case inflight =>
    intro place wire chunk hwire hsame
    rcases h.inflight place wire chunk hwire hsame with hmem | ⟨before, hbefore, hfresh, hframe⟩
    · exact .inl (hmore hmem)
    rcases mem_cons.mp (hforward ▸ hbefore) with rfl | hlater
    · exact .inl (hchunk chunk hframe)
    · exact .inr ⟨before, hlater, hfresh, hframe⟩
  case forward =>
    intro later hlater chunk hsame
    rcases h.forward later (hforward ▸ List.mem_cons_of_mem _ hlater) chunk hsame with hmem | ⟨before, hbefore, hfresh, hle, hframe⟩
    · exact .inl (hmore hmem)
    rcases mem_cons.mp (hforward ▸ hbefore) with rfl | hin
    · exact .inl (hchunk chunk hframe)
    · exact .inr ⟨before, hin, hfresh, hle, hframe⟩

/-- A granted chunk does not exceed a bound. -/
theorem Granted.not_overrun (h : Granted config l chunks) (hinv : Inv host config l.receiver)
    (hmode : config.onChunk = false) (hmore : chunks ⊆ granted) (hchunk : ∀ chunk, sent.frame.chunk = some chunk → chunk ∈ granted)
    (hsum : ∀ measure : Bytes → ℕ, ∑ chunk ∈ granted, measure chunk.2.2 + (forward.map (Sent.paid measure)).sum ≤
      ∑ chunk ∈ chunks, measure chunk.2.2 + l.underWay measure) :
    ((l.receiver.expireInactive host expireAt).handle host config sent.frame now outcome).overrun = false := by
  by_contra hoverrun
  obtain ⟨chunk, hsame, hnew, hexceeds⟩ :=
    (hinv.handle_effect sent.frame expireAt now outcome).exceeds_of_overrun (Bool.not_eq_false _ ▸ hoverrun)
  have hload : ∀ measure : Bytes → ℕ, (l.receiver.expireInactive host expireAt).load measure + measure chunk.2.2 ≤
      ∑ chunk ∈ chunks, measure chunk.2.2 + l.underWay measure := by
    intro measure
    have hsubset : insert chunk (l.receiver.expireInactive host expireAt).staged.toFinset ⊆ granted := by
      refine Finset.insert_subset (hchunk chunk hsame) fun other hother => hmore (h.staged ?_)
      obtain ⟨key, index, payload⟩ := other
      obtain ⟨transaction, digest, hactive, hplaced⟩ := mem_staged.mp (mem_toFinset.mp hother)
      exact mem_toFinset.mpr (mem_staged.mpr ⟨transaction, digest, (Dict.get?_filter_eq_some.mp hactive).1, hplaced⟩)
    have hle := Finset.sum_le_sum_of_subset (f := fun chunk => measure chunk.2.2) hsubset
    rw [Finset.sum_insert fun hmem => hnew (mem_toFinset.mp hmem), sum_staged] at hle
    have := hsum measure
    omega
  have hbytes := (hload List.length).trans (Nat.le_of_add_right_le h.bytes)
  have hframes := (hload fun _ => 1).trans (Nat.le_of_add_right_le h.frames)
  rw [← stagedBytes_eq] at hbytes
  rw [← stagedChunks_eq] at hframes
  simp only [Receiver.exceeds, stagedPayload, hmode, Bool.false_eq_true, if_false, map_some, getD_some,
    Option.isSome_some, if_true, Bool.or_eq_true, decide_eq_true_eq] at hexceeds
  omega

/-- Processing a frame keeps the invariant. -/
theorem LinkInv.process (h : LinkInv host config l) (hmode : config.onChunk = false) (hforward : l.forward = sent :: forward) :
    LinkInv host config (l.processed host config sent forward expireAt now outcome) := by
  obtain ⟨chunks, hchunks⟩ := h.granted
  obtain ⟨granted, hmore, hchunk, hsum⟩ := hchunks.next h.numbered hforward
  refine ⟨h.receiver.receive .., h.numbered.process hforward, h.wired.process h.numbered hmode hforward,
    ⟨granted, hchunks.process h.receiver hforward hmore hchunk hsum⟩, h.truthful.process h.receiver h.numbered hforward, ?_⟩
  have hnot : ((l.receiver.expireInactive host expireAt).handle host config sent.frame now outcome).overrun = false :=
    hchunks.not_overrun h.receiver hmode hmore hchunk hsum
  rw [← receive_overrun] at hnot
  exact Bool.or_eq_false_iff.mpr ⟨h.overran, hnot⟩

end Process

variable {returned : Returned} {reverse : List Returned}

section

variable (h : LinkInv host config l)

include h

section

variable (hreverse : l.reverse = returned :: reverse)

include hreverse

/-- The next answer at most makes the sender forget frames in flight, the acknowledged one
among them. -/
theorem LinkInv.answered {sender : Sender}
    (hforgets : l.sender.Forgets sender)
    (hack : ∀ ackSequence status, returned.frame.body = .ack ackSequence status →
      sender.inflight.get? (returned.frame.key, ackSequence) = none) :
    LinkInv host config { l with sender := sender, reverse := reverse } := by
  have hmem : ∀ later ∈ reverse, later ∈ l.reverse := fun later hin => hreverse ▸ List.mem_cons_of_mem _ hin
  have hforgotten := h.forgets hforgets
  constructor
  case receiver => exact h.receiver
  case numbered =>
    exact ⟨h.numbered.forward, h.numbered.emitted, h.numbered.chunk, (pairwise_cons.mp (hreverse ▸ h.numbered.reverse)).2,
      fun later hin => h.numbered.unanswered later (hmem later hin), fun later hin => h.numbered.answered later (hmem later hin)⟩
  case wired =>
    refine ⟨h.wired.encoded, hforgotten.wired.inflight, fun place wire hwire hput => ?_⟩
    rcases hforgotten.wired.acknowledged place wire hwire hput with hunder | ⟨later, hin, status, hkey, hbody, hle⟩
    · exact .inl hunder
    rcases mem_cons.mp (hreverse ▸ hin) with rfl | hin
    · have hplace := (hforgotten.wired.inflight place wire hwire).1
      have hgone := hack _ _ hbody
      rw [hkey, ← hplace, show sender.inflight.get? place = some wire from hwire] at hgone
      cases hgone
    · exact .inr ⟨later, hin, status, hkey, hbody, hle⟩
  case granted =>
    obtain ⟨chunks, hchunks⟩ := hforgotten.granted
    exact ⟨chunks, hchunks.staged, hchunks.bytes, hchunks.frames, hchunks.inflight, hchunks.forward⟩
  case truthful => exact fun later hin => h.truthful later (hmem later hin)
  case overran => exact h.overran

/-- Where the receiver had processed every chunk emitted so far, none is under way, and none
is in flight. -/
theorem LinkInv.quiet (hcredit : returned.frame.isAck = false) (hsettled : l.lastChunk ≤ returned.number) :
    (∀ sent ∈ l.forward, sent.frame.chunk = none) ∧ ∀ place wire, l.sender.inflight.get? place = some wire → wire.frame.chunk = none := by
  have hunder : ∀ sent ∈ l.forward, ¬sent.frame.isPutChunk = true := fun sent hsent hput => by
    have hle := h.numbered.chunk sent hsent hput
    have hlt := h.numbered.unanswered returned (hreverse ▸ mem_cons_self) sent hsent
    omega
  refine ⟨fun sent hsent => ?_, fun place wire hwire => ?_⟩
  · refine Option.eq_none_iff_forall_ne_some.mpr fun chunk hchunk => ?_
    exact hunder sent hsent (isPutChunk_iff.mpr ⟨chunk, hchunk⟩)
  refine Option.eq_none_iff_forall_ne_some.mpr fun chunk hchunk => ?_
  have hput := isPutChunk_iff.mpr ⟨chunk, hchunk⟩
  rcases h.wired.acknowledged place wire hwire hput with ⟨sent, hsent, hframe⟩ | ⟨later, hin, status, -, hbody, hle⟩
  · exact hunder sent hsent (hframe ▸ hput)
  have hack : later.frame.isAck = true := by rw [Frame.isAck, hbody]
  rcases mem_cons.mp (hreverse ▸ hin) with rfl | hin
  · rw [hcredit] at hack
    cases hack
  have hordered := h.numbered.reverse
  rw [hreverse] at hordered
  have hlt := (pairwise_cons.mp hordered).1 later hin hack
  omega

/-- A credit of what is left is taken. -/
theorem LinkInv.credited {availableBytes availableFrames : ℕ} {lastCreditSequence : ℤ}

    (hbody : returned.frame.body = .credit availableBytes availableFrames) (hsettled : l.lastChunk ≤ returned.number) :
    LinkInv host config
      { l with
        sender := { l.sender with
          lastCreditSequence := lastCreditSequence, availableBytes := availableBytes, availableFrames := availableFrames }
        reverse := reverse } := by
  have hanswered := h.answered hreverse (.refl l.sender) fun ackSequence status hack => by
    rw [hbody] at hack
    cases hack
  obtain ⟨hunder, hflight⟩ := h.quiet hreverse (by rw [Frame.isAck, hbody]) hsettled
  have hnothing : ∀ measure, l.underWay measure = 0 := by
    intro measure
    refine List.sum_eq_zero fun paid hpaid => ?_
    obtain ⟨sent, hsent, rfl⟩ := mem_map.mp hpaid
    rw [Sent.paid, hunder sent hsent, Option.map_none, Option.getD_none, ite_self]
  obtain ⟨hbytes, hframes⟩ := (h.truthful returned (hreverse ▸ mem_cons_self) _ _ hbody).resolve_left (Nat.not_lt.mpr hsettled)
  rw [stagedBytes_eq, ← sum_staged] at hbytes
  rw [stagedChunks_eq, ← sum_staged] at hframes
  refine ⟨h.receiver, ⟨hanswered.numbered.forward, hanswered.numbered.emitted, hanswered.numbered.chunk,
    hanswered.numbered.reverse, hanswered.numbered.unanswered, hanswered.numbered.answered⟩,
    ⟨hanswered.wired.encoded, hanswered.wired.inflight, hanswered.wired.acknowledged⟩, ⟨l.receiver.staged.toFinset, ?_⟩,
    hanswered.truthful, h.overran⟩
  constructor
  case staged => exact Finset.Subset.refl _
  case bytes =>
    refine Eq.trans_le ?_ hbytes
    exact congrArg (_ + · + availableBytes) (hnothing List.length)
  case frames =>
    refine Eq.trans_le ?_ hframes
    exact congrArg (_ + · + availableFrames) (hnothing fun _ => 1)
  case inflight =>
    intro place wire chunk hwire hchunk
    rw [hflight place wire hwire] at hchunk
    cases hchunk
  case forward =>
    intro sent hsent chunk hchunk
    rw [hunder sent hsent] at hchunk
    cases hchunk

/-- Applying an answer keeps the invariant, where a credit that is taken answers no frame
emitted before the last chunk. -/
theorem LinkInv.apply
    (hsettled : Settled l .apply) (senderConfig : SenderConfig) :
    LinkInv host config { l with sender := (l.sender.apply senderConfig returned.frame).1, reverse := reverse } := by
  have hhead : l.reverse.head? = some returned := by rw [hreverse, List.head?_cons]
  unfold Sender.apply
  split
  next availableBytes availableFrames hbody =>
    simp only [Sender.applyCredit, hbody]
    split
    case isTrue =>
      refine h.answered hreverse (.refl l.sender) fun ackSequence status hack => ?_
      rw [hbody] at hack
      cases hack
    case isFalse hnew =>
      have hcredit : returned.frame.isCredit = true := by rw [Frame.isCredit, hbody]
      exact h.credited hreverse hbody (hsettled returned hhead hcredit (by omega))
  next =>
    obtain ⟨hforgets, hack⟩ := l.sender.forgets_acknowledge senderConfig returned.frame
    exact h.answered hreverse hforgets hack

end

/-- Expiry keeps the invariant. -/
theorem LinkInv.expireInactive (now : τ) :
    LinkInv host config { l with receiver := l.receiver.expireInactive host now } := by
  have hsubset : (l.receiver.expireInactive host now).staged.toFinset ⊆ l.receiver.staged.toFinset := by
    intro chunk hmem
    obtain ⟨key, index, payload⟩ := chunk
    obtain ⟨transaction, digest, hactive, hplaced⟩ := mem_staged.mp (mem_toFinset.mp hmem)
    exact mem_toFinset.mpr (mem_staged.mpr ⟨transaction, digest, (Dict.get?_filter_eq_some.mp hactive).1, hplaced⟩)
  obtain ⟨chunks, hchunks⟩ := h.granted
  refine ⟨h.receiver.expireInactive now, ⟨h.numbered.forward, h.numbered.emitted, h.numbered.chunk, h.numbered.reverse,
    h.numbered.unanswered, h.numbered.answered⟩, ⟨h.wired.encoded, h.wired.inflight, h.wired.acknowledged⟩,
    ⟨chunks, hsubset.trans hchunks.staged, hchunks.bytes, hchunks.frames, hchunks.inflight, hchunks.forward⟩, ?_, h.overran⟩
  intro returned hin availableBytes availableFrames hbody
  rcases h.truthful returned hin availableBytes availableFrames hbody with hlt | ⟨hbytes, hframes⟩
  · exact .inl hlt
  right
  have hless : ∀ measure, (l.receiver.expireInactive host now).load measure ≤ l.receiver.load measure :=
    fun measure => (load_le hsubset measure).trans_eq sum_staged
  rw [stagedChunks_eq] at hframes ⊢
  exact ⟨(Nat.add_le_add_right (hless _) _).trans hbytes, (Nat.add_le_add_right (hless _) _).trans hframes⟩

end

theorem linkInv_init : LinkInv host config ({} : Link τ) where
  receiver := inv_init
  numbered := ⟨.nil, nofun, nofun, .nil, nofun, nofun⟩
  wired := ⟨nofun, nofun, nofun⟩
  granted := ⟨∅, Finset.Subset.refl _, Nat.zero_le _, Nat.zero_le _, nofun, nofun⟩
  truthful := nofun
  overran := rfl

/-- Every settled step keeps the invariant. -/
theorem LinkInv.step (h : LinkInv host config l) (hmode : config.onChunk = false) {act : LinkAct τ} (hsettled : Settled l act)
    (hstep : linkStep host senderConfig config l act = some l') : LinkInv host config l' := by
  cases act with
  | offer frame =>
    cases hstep
    exact h.offer senderConfig frame
  | process expireAt now outcome =>
    rw [linkStep] at hstep
    split at hstep
    · cases hstep
    next sent forward hforward =>
      cases hstep
      exact h.process hmode hforward
  | apply =>
    rw [linkStep] at hstep
    split at hstep
    · cases hstep
    next returned reverse hreverse =>
      cases hstep
      exact h.apply hreverse hsettled senderConfig
  | expireInactive now =>
    cases hstep
    exact h.expireInactive now

/-- What is under way and what is staged is within the bounds of the receiver, and no chunk
was aborted for a bound. -/
structure WithinBounds (config : ReceiverConfig) (l : Link τ) : Prop where
  /-- Bytes are within the bound. -/
  bytes : l.underWay List.length + l.receiver.stagedBytes ≤ config.maxStagedBytes
  /-- Chunks are within the bound. -/
  frames : l.underWay (fun _ => 1) + l.receiver.stagedChunks ≤ config.maxStagedChunks
  /-- No chunk was aborted for a bound. -/
  overran : l.overran = false

/-- In every run where each credit the sender takes was made after the receiver had processed
every chunk emitted so far, the receiver is never overrun. -/
theorem settled_credits_suffice (host : Host τ) (senderConfig : SenderConfig) (config : ReceiverConfig) (hmode : config.onChunk = false)
    (l : Link τ) (h : Reachable (linkStep host senderConfig config) Settled {} l) : WithinBounds config l := by
  have hinv : LinkInv host config l :=
    h.invariant (LinkInv host config) linkInv_init fun _ _ _ _ hs hsettled hstep => hs.step hmode hsettled hstep
  obtain ⟨chunks, hchunks⟩ := hinv.granted
  have hbytes := load_le hchunks.staged List.length
  have hframes := load_le hchunks.staged fun _ => 1
  rw [← stagedBytes_eq] at hbytes
  rw [← stagedChunks_eq] at hframes
  have hpaid := hchunks.bytes
  have hcount := hchunks.frames
  exact ⟨by omega, by omega, hinv.overran⟩

/-- A sender with room for what the runs below send. -/
def sampleSender : SenderConfig where
  maxInflightFrames := 64
  maxInflightBytes := 65536
  recentLocalOnly := 16
  positive := ⟨by decide, by decide, by decide⟩

/-- Two transactions where one chunk can be staged, each credit taken at once: the second
chunk is not offered before the first one was processed. -/
theorem settled_credits_suffice_staged : ∃ l : Link ℕ, WithinBounds (sampleConfig 64 1 (by decide) (by decide)) l ∧
    l.receiver.stagedChunks = 1 := by
  obtain ⟨l, hl, hstaged⟩ := Reachable.exists_of_checked_runs (fun l act => decide (Settled l act)) (fun _ _ => of_decide_eq_true)
    (linkStep sampleHost sampleSender (sampleConfig 64 1 (by decide) (by decide))) {}
    [.offer (openFrame firstKey), .process 0 0 .returns, .apply, .apply, .offer firstChunk, .process 1 1 .returns, .apply, .apply]
    (fun l => decide (l.receiver.stagedChunks = 1)) (by decide +kernel)
  exact ⟨l, settled_credits_suffice sampleHost sampleSender _ rfl l hl, of_decide_eq_true hstaged⟩

/-- The credits of two opened transactions are taken one after the other, and the first one
was spent before the second was taken: two chunks are under way where one can be staged, and
the second one is aborted. -/
theorem stale_credit_overruns : ∃ l l' : Link ℕ,
    Reachable (linkStep sampleHost sampleSender (sampleConfig 64 1 (by decide) (by decide))) Unrestricted {} l ∧
      Reachable (linkStep sampleHost sampleSender (sampleConfig 64 1 (by decide) (by decide))) Unrestricted {} l' ∧
      l.underWay (fun _ => 1) + l.receiver.stagedChunks = 2 ∧ l'.overran = true := by
  obtain ⟨l, hl, hunder⟩ := Reachable.exists_of_runs
    (linkStep sampleHost sampleSender (sampleConfig 64 1 (by decide) (by decide))) {}
    [.offer (openFrame firstKey), .offer (openFrame secondKey), .process 0 0 .returns, .process 0 0 .returns, .apply, .apply,
      .offer firstChunk, .apply, .apply, .offer secondChunk]
    (fun l => decide (l.underWay (fun _ => 1) + l.receiver.stagedChunks = 2)) (by decide +kernel)
  obtain ⟨l', hl', hoverran⟩ := Reachable.exists_of_runs
    (linkStep sampleHost sampleSender (sampleConfig 64 1 (by decide) (by decide))) {}
    [.offer (openFrame firstKey), .offer (openFrame secondKey), .process 0 0 .returns, .process 0 0 .returns, .apply, .apply,
      .offer firstChunk, .apply, .apply, .offer secondChunk, .process 1 1 .returns, .process 1 1 .returns]
    (fun l => l.overran) (by decide +kernel)
  exact ⟨l, l', hl, hl', of_decide_eq_true hunder, hoverran⟩

end SparkRing.Replication
